import Kubenyx.Common.Routing
import Kubenyx.Common.Traverse
import Kubenyx.Net.PodSubnet

/-!
# Routes between the nodes

Model of `kubenyx-routes` (modules/network.nix:222-261), which gives every node one static route
to the pod subnet of each of its peers. The commands are tried again, all of them, until an
attempt succeeds as a whole: the address of the node may come up after the unit. The kernel's
table is a parameter (`Routing`), and so is `ip`, which may fail at any time: of it is known what
it does with a command of the unit where it succeeds (`Replaces`).

* `attempts_invariant`: what every route leaves as it is, any number of attempts does.
* `attempts_success`: what a command establishes holds after the unit has succeeded, if the other
  commands keep it.
* `pods_routed`: a pod address goes to the node that owns it, from every other node, whatever was
  in the table but preferred routes; and at no time to a node that does not own it, by these
  routes.
-/

namespace Kubenyx.Net

open Kubenyx.Common

/-! ## The commands -/

/-- What is done with a packet: it goes to another node, or out by an interface. -/
inductive Hop where
  | via (address : Text)
  | dev (interface : Text)
  deriving DecidableEq

/-- An `ip route replace` (modules/network.nix:246-250). -/
structure RouteCommand where
  v6 : Bool
  dest : Text
  address : Text
  deriving DecidableEq

/-- The command as it is written. -/
def RouteCommand.text (c : RouteCommand) : Text :=
  "ip ".toList ++ (if c.v6 then "-6 ".toList else []) ++ "route replace ".toList ++ c.dest ++
    " via ".toList ++ c.address

/-- The commands of a node, one for each of its peers; `none` where one does not evaluate. -/
def Config.routeCommands (cfg : Config) (self : Text) : Option (List RouteCommand) :=
  (cfg.nodes.filter (·.1 ≠ self)).mapM fun peer => do
    let dest ← nodePodCidr cfg.clusterCidr cfg.carve peer.2.index
    let address ← peer.2.address
    some ⟨isV6 cfg.clusterCidr, dest, address⟩

section script

variable {R : Routing Hop}

/-- One attempt: the commands up to the first that fails. -/
def attempt (ip : Text → R.Table → Bool × R.Table) :
    List RouteCommand → R.Table → Bool × R.Table
  | [], t => (true, t)
  | c :: cs, t =>
    let r := ip c.text t
    if r.1 then attempt ip cs r.2 else r

/-- The attempts up to the first that succeeds. -/
def attempts (cs : List RouteCommand) :
    List (Text → R.Table → Bool × R.Table) → R.Table → Bool × R.Table
  | [], t => (false, t)
  | ip :: ips, t =>
    let r := attempt ip cs t
    if r.1 then r else attempts cs ips r.2

/-- `kubenyx-routes` (modules/network.nix:241-258): whether it succeeds, and the table that it
    leaves. -/
def kubenyxRoutes (cs : List RouteCommand) (ip : ℕ → Text → R.Table → Bool × R.Table)
    (t : R.Table) : Bool × R.Table :=
  attempts cs ((List.range' 1 150).map ip) t

/-- Where a command of the unit succeeds, `ip` has read a destination and replaced the route to it;
    where it fails, the table is as it was. -/
def Replaces (R : Routing Hop) (read : Text → Option Block) (cs : List RouteCommand)
    (ip : Text → R.Table → Bool × R.Table) : Prop :=
  ∀ c ∈ cs, ∀ t, if (ip c.text t).1 then
      ∃ P, read c.dest = some P ∧ (ip c.text t).2 = R.replace t P (.via c.address)
    else (ip c.text t).2 = t

end script

/-! ## What a run leaves -/

section runs

variable {R : Routing Hop} {read : Text → Option Block} {cs : List RouteCommand} {t : R.Table}
  {ip : Text → R.Table → Bool × R.Table} {ips : List (Text → R.Table → Bool × R.Table)}

/-- What every route leaves as it is, a command does, in whatever way it ends. -/
theorem Replaces.step {I : R.Table → Prop} (hip : Replaces R read cs ip)
    (hstep : ∀ c ∈ cs, ∀ P, read c.dest = some P → ∀ t, I t → I (R.replace t P (.via c.address)))
    {c : RouteCommand} (hc : c ∈ cs) (ht : I t) : I (ip c.text t).2 := by
  have hdone := hip c hc t
  split_ifs at hdone
  · obtain ⟨P, hread, heq⟩ := hdone
    rw [heq]
    exact hstep c hc P hread t ht
  · rw [hdone]
    exact ht

/-- So does an attempt. -/
theorem attempt_invariant {I : R.Table → Prop} (hip : Replaces R read cs ip)
    (hstep : ∀ c ∈ cs, ∀ P, read c.dest = some P → ∀ t, I t → I (R.replace t P (.via c.address)))
    {todo : List RouteCommand} (htodo : ∀ c ∈ todo, c ∈ cs) (ht : I t) :
    I (attempt ip todo t).2 := by
  induction todo generalizing t with
  | nil => exact ht
  | cons c todo ih =>
    obtain ⟨hc, htodo⟩ := List.forall_mem_cons.mp htodo
    have hnext := hip.step hstep hc ht
    rw [attempt]
    split_ifs
    · exact ih htodo hnext
    · exact hnext

/-- And so do all of them. -/
theorem attempts_invariant {I : R.Table → Prop} (hips : ∀ ip ∈ ips, Replaces R read cs ip)
    (hstep : ∀ c ∈ cs, ∀ P, read c.dest = some P → ∀ t, I t → I (R.replace t P (.via c.address)))
    (ht : I t) : I (attempts cs ips t).2 := by
  induction ips generalizing t with
  | nil => exact ht
  | cons ip ips ih =>
    obtain ⟨hip, hips⟩ := List.forall_mem_cons.mp hips
    have hnext := attempt_invariant hip hstep (fun _ hc => hc) ht
    rw [attempts]
    split_ifs
    · exact hnext
    · exact ih hips hnext

/-- An attempt that succeeds has run every command: what one of them establishes is kept by those
    after it. -/
theorem attempt_success {I Q : R.Table → Prop} (hip : Replaces R read cs ip)
    (hstep : ∀ c ∈ cs, ∀ P, read c.dest = some P → ∀ t, I t → I (R.replace t P (.via c.address)))
    (hkeep : ∀ c ∈ cs, ∀ P, read c.dest = some P → ∀ t, I t ∧ Q t →
      Q (R.replace t P (.via c.address)))
    {c : RouteCommand}
    (hmake : ∀ P, read c.dest = some P → ∀ t, I t → Q (R.replace t P (.via c.address)))
    {todo : List RouteCommand} (htodo : ∀ c ∈ todo, c ∈ cs) (hc : c ∈ todo) (ht : I t)
    (h : (attempt ip todo t).1 = true) : Q (attempt ip todo t).2 := by
  have hboth : ∀ c ∈ cs, ∀ P, read c.dest = some P → ∀ t, I t ∧ Q t →
      I (R.replace t P (.via c.address)) ∧ Q (R.replace t P (.via c.address)) :=
    fun c hc P hP t ht => ⟨hstep c hc P hP t ht.1, hkeep c hc P hP t ht⟩
  induction todo generalizing t with
  | nil => cases hc
  | cons c' todo ih =>
    obtain ⟨hc', hrest⟩ := List.forall_mem_cons.mp htodo
    have hnext := hip.step hstep hc' ht
    rw [attempt] at h ⊢
    split_ifs at h ⊢ with hok
    · rcases List.mem_cons.mp hc with rfl | hc
      · have hdone := hip c hc' t
        rw [if_pos hok] at hdone
        obtain ⟨P, hread, heq⟩ := hdone
        have hmade : Q (ip c.text t).2 := by
          rw [heq]
          exact hmake P hread t ht
        exact (attempt_invariant hip hboth hrest ⟨hnext, hmade⟩).2
      · exact ih hrest hc hnext h
    · exact absurd h hok

/-- What a command establishes holds after a run that succeeds, if the commands keep it. -/
theorem attempts_success {I Q : R.Table → Prop} (hips : ∀ ip ∈ ips, Replaces R read cs ip)
    (hstep : ∀ c ∈ cs, ∀ P, read c.dest = some P → ∀ t, I t → I (R.replace t P (.via c.address)))
    (hkeep : ∀ c ∈ cs, ∀ P, read c.dest = some P → ∀ t, I t ∧ Q t →
      Q (R.replace t P (.via c.address)))
    {c : RouteCommand} (hc : c ∈ cs)
    (hmake : ∀ P, read c.dest = some P → ∀ t, I t → Q (R.replace t P (.via c.address)))
    (ht : I t) (h : (attempts cs ips t).1 = true) : Q (attempts cs ips t).2 := by
  induction ips generalizing t with
  | nil => cases h
  | cons ip ips ih =>
    obtain ⟨hip, hips⟩ := List.forall_mem_cons.mp hips
    rw [attempts] at h ⊢
    split_ifs at h ⊢ with hsuccess
    · exact attempt_success hip hstep hkeep hmake (fun _ hc => hc) hc ht hsuccess
    · exact ih hips (attempt_invariant hip hstep (fun _ hc => hc) ht) h

end runs

/-! ## The commands of a node -/

section commands

variable {cfg : Config} {B : Block} {self : Text} {cs : List RouteCommand}

/-- The addresses are declared where there are peers. -/
theorem address_of_peer (h : cfg.satisfied) {n m : Text × Node} (hn : n ∈ cfg.nodes)
    (hm : m ∈ cfg.nodes) (hne : n.1 ≠ m.1) : ∃ address, n.2.address = some address := by
  have hset : cfg.addressesSet.assertion = some true := h _ (by simp [Config.assertions])
  simp only [Config.addressesSet, Option.some.injEq, decide_eq_true_eq] at hset
  obtain hone | hall := hset
  · obtain ⟨k, hk⟩ := List.length_eq_one_iff.mp hone
    rw [hk, List.mem_singleton] at hn hm
    exact absurd (hn.trans hm.symm ▸ rfl) hne
  · have haddress := List.all_eq_true.mp hall n.2 (List.mem_map_of_mem hn)
    exact Option.ne_none_iff_exists'.mp (of_decide_eq_true haddress)

/-- The commands of a node are those of its peers. -/
theorem mem_routeCommands (h : cfg.routeCommands self = some cs) {c : RouteCommand} :
    c ∈ cs ↔ ∃ peer ∈ cfg.nodes, peer.1 ≠ self ∧
      nodePodCidr cfg.clusterCidr cfg.carve peer.2.index = some c.dest ∧
      peer.2.address = some c.address ∧ c.v6 = isV6 cfg.clusterCidr := by
  rw [mem_of_mapM h]
  simp only [List.mem_filter, decide_eq_true_eq, Option.bind_eq_bind, Option.bind_eq_some_iff,
    Option.some.injEq]
  constructor
  · rintro ⟨peer, ⟨hpeer, hne⟩, dest, hdest, address, haddress, rfl⟩
    exact ⟨peer, hpeer, hne, hdest, haddress, rfl⟩
  · rintro ⟨peer, hpeer, hne, hdest, haddress, hv6⟩
    exact ⟨peer, ⟨hpeer, hne⟩, c.dest, hdest, c.address, haddress, by rw [← hv6]⟩

/-- The destination of a command is the pod subnet of a peer, and the address is the peer's. -/
theorem podSubnet_of_mem {read : Text → Option Block} (hread : ∀ t P, Writes t P → read t = some P)
    (hroom : ∀ n ∈ cfg.nodes, ∃ P, cfg.PodSubnet n.2 P) (h : cfg.routeCommands self = some cs)
    {c : RouteCommand} (hc : c ∈ cs) {P : Block} (hP : read c.dest = some P) :
    ∃ peer ∈ cfg.nodes, peer.1 ≠ self ∧ cfg.PodSubnet peer.2 P ∧
      peer.2.address = some c.address := by
  obtain ⟨peer, hpeer, hne, hdest, haddress, -⟩ := (mem_routeCommands h).mp hc
  obtain ⟨Q, t, ht, hQ⟩ := hroom peer hpeer
  obtain rfl : t = c.dest := Option.some.inj (ht.symm.trans hdest)
  obtain rfl : Q = P := Option.some.inj ((hread _ Q hQ).symm.trans hP)
  exact ⟨peer, hpeer, hne, ⟨_, ht, hQ⟩, haddress⟩

end commands

/-! ## Pods -/

section pods

variable {cfg : Config} {B : Block} {read : Text → Option Block} {self : Text × Node}
  {cs : List RouteCommand} {R : Routing Hop}

theorem podSubnet_of_room (hB : Writes cfg.clusterCidr B) (hsat : cfg.satisfied) {n : Node}
    (hroom : HasRoom B n.index) : ∃ P, cfg.PodSubnet n P ∧ P.addresses ⊆ B.addresses :=
  (exists_podSubnet_iff hB (len_le_carve hsat hB)).mpr
    ((inside_iff (len_le_carve hsat hB) n.index.isLt).mpr hroom)

/-- A node owns one pod subnet. -/
theorem podSubnet_unique (hB : Writes cfg.clusterCidr B) {n : Node} {P Q : Block}
    (hP : cfg.PodSubnet n P) (hQ : cfg.PodSubnet n Q) : P = Q := by
  obtain ⟨hf, hbase, hlen⟩ := (podSubnet_iff hB).mp hP
  obtain ⟨hf', hbase', hlen'⟩ := (podSubnet_iff hB).mp hQ
  obtain ⟨family, base, len, hlt, hle⟩ := P
  obtain ⟨family', base', len', hlt', hle'⟩ := Q
  obtain rfl := hf.trans hf'.symm
  obtain rfl := hbase.trans hbase'.symm
  obtain rfl := hlen.trans hlen'.symm
  rfl

/-- Nodes whose pod subnets have an address in common are one node. -/
theorem owner_unique (hB : Writes cfg.clusterCidr B) (hsat : cfg.satisfied) {n m : Text × Node}
    (hn : n ∈ cfg.nodes) (hm : m ∈ cfg.nodes) {P Q : Block} (hP : cfg.PodSubnet n.2 P)
    (hQ : cfg.PodSubnet m.2 Q) {a : Family × ℕ} (ha : a ∈ P.addresses) (ha' : a ∈ Q.addresses) :
    n = m := by
  by_contra hne
  have hname : n.1 ≠ m.1 := fun heq => hne (List.inj_on_of_nodup_map cfg.nodup hn hm heq)
  exact Set.disjoint_left.mp (disjoint_podSubnets hB (index_ne hsat hn hm hname) hP hQ) ha ha'

/-- The commands evaluate. -/
theorem exists_routeCommands (hB : Writes cfg.clusterCidr B) (hsat : cfg.satisfied)
    (hroom : ∀ n ∈ cfg.nodes, HasRoom B n.2.index) (hself : self ∈ cfg.nodes) :
    ∃ cs, cfg.routeCommands self.1 = some cs := by
  refine exists_of_mapM.mpr fun p hp => ?_
  obtain ⟨hmem, hne⟩ := List.mem_filter.mp hp
  obtain ⟨-, ⟨dest, hdest, -⟩, -⟩ := podSubnet_of_room hB hsat (hroom p hmem)
  obtain ⟨address, haddress⟩ := address_of_peer hsat hmem hself (of_decide_eq_true hne)
  rw [hdest, haddress]
  exact ⟨_, rfl⟩

/-- A command of a node whose route leads to a pod address has the owner's pod subnet and
    address. -/
theorem command_to_pod (hB : Writes cfg.clusterCidr B) (hsat : cfg.satisfied)
    (hroom : ∀ n ∈ cfg.nodes, HasRoom B n.2.index) (hread : ∀ t P, Writes t P → read t = some P)
    (hcs : cfg.routeCommands self.1 = some cs) {owner : Text × Node} (howner : owner ∈ cfg.nodes)
    {P : Block} (hP : cfg.PodSubnet owner.2 P) {a : Family × ℕ} (ha : a ∈ P.addresses)
    {c : RouteCommand} (hc : c ∈ cs) {Q : Block} (hQ : read c.dest = some Q)
    (hmem : a ∈ Q.addresses) :
    owner.1 ≠ self.1 ∧ owner.2.address = some c.address ∧ Q = P := by
  have hpods : ∀ n ∈ cfg.nodes, ∃ P, cfg.PodSubnet n.2 P := fun n hn =>
    (podSubnet_of_room hB hsat (hroom n hn)).imp fun _ h => h.1
  obtain ⟨peer, hpeer, hne, hsub, haddress⟩ := podSubnet_of_mem hread hpods hcs hc hQ
  obtain rfl := owner_unique hB hsat hpeer howner hsub hP hmem ha
  exact ⟨hne, haddress, podSubnet_unique hB hsub hP⟩

/-- No command of a node brings a route that is preferred to one to a pod subnet. -/
theorem clear_replace (hR : R.Lawful) (hB : Writes cfg.clusterCidr B) (hsat : cfg.satisfied)
    (hroom : ∀ n ∈ cfg.nodes, HasRoom B n.2.index) (hread : ∀ t P, Writes t P → read t = some P)
    (hcs : cfg.routeCommands self.1 = some cs) {owner : Node} {P : Block}
    (hP : cfg.PodSubnet owner P) {c : RouteCommand} (hc : c ∈ cs) {Q : Block}
    (hQ : read c.dest = some Q) {t : R.Table} (ht : R.Clear P t) :
    R.Clear P (R.replace t Q (.via c.address)) := by
  have hpods : ∀ n ∈ cfg.nodes, ∃ P, cfg.PodSubnet n.2 P := fun n hn =>
    (podSubnet_of_room hB hsat (hroom n hn)).imp fun _ h => h.1
  obtain ⟨peer, -, -, hsub, -⟩ := podSubnet_of_mem hread hpods hcs hc hQ
  obtain ⟨hfamily, -, hlen⟩ := (podSubnet_iff hB).mp hP
  obtain ⟨hfamily', -, hlen'⟩ := (podSubnet_iff hB).mp hsub
  exact ht.replace hR (hfamily'.trans hfamily.symm) (hlen'.trans hlen.symm).le _

/-- A pod address goes to the node that owns it, from every other node, once `kubenyx-routes` has
    succeeded there. Whatever becomes of the commands, a node's own pods are where they were, and
    those of the others too, or with their owner. -/
theorem pods_routed (hR : R.Lawful) (hB : Writes cfg.clusterCidr B) (hsat : cfg.satisfied)
    (hroom : ∀ n ∈ cfg.nodes, HasRoom B n.2.index)
    (hread : ∀ t P, Writes t P → read t = some P) (hself : self ∈ cfg.nodes)
    {before : R.Table}
    (hbefore : ∀ n ∈ cfg.nodes, n.1 ≠ self.1 → ∀ P, cfg.PodSubnet n.2 P → R.Clear P before) :
    ∃ cs, cfg.routeCommands self.1 = some cs ∧
      ∀ owner ∈ cfg.nodes, ∃ P, cfg.PodSubnet owner.2 P ∧ P.addresses ⊆ B.addresses ∧
        ∀ a ∈ P.addresses,
          (self.1 = owner.1 → ∀ ips, (∀ ip ∈ ips, Replaces R read cs ip) →
            R.lookup (attempts cs ips before).2 a = R.lookup before a) ∧
          (self.1 ≠ owner.1 → ∃ address, owner.2.address = some address ∧
            (∀ ip, (∀ n, Replaces R read cs (ip n)) → (kubenyxRoutes cs ip before).1 = true →
              R.lookup (kubenyxRoutes cs ip before).2 a = some (.via address)) ∧
            ∀ ips, (∀ ip ∈ ips, Replaces R read cs ip) →
              R.lookup (attempts cs ips before).2 a = some (.via address) ∨
                R.lookup (attempts cs ips before).2 a = R.lookup before a) := by
  obtain ⟨cs, hcs⟩ := exists_routeCommands hB hsat hroom hself
  refine ⟨cs, hcs, fun owner howner => ?_⟩
  obtain ⟨P, hP, hinside⟩ := podSubnet_of_room hB hsat (hroom owner howner)
  refine ⟨P, hP, hinside, fun a ha => ?_⟩
  have hroute : ∀ c ∈ cs, ∀ Q, read c.dest = some Q → a ∈ Q.addresses → _ :=
    fun c hc Q hQ hmem => command_to_pod hB hsat hroom hread hcs howner hP ha hc hQ hmem
  constructor
  · intro hown ips hips
    refine attempts_invariant (I := fun t => R.lookup t a = R.lookup before a) hips ?_ rfl
    intro c hc Q hQ t ht
    have hmem : a ∉ Q.addresses := fun hmem => (hroute c hc Q hQ hmem).1 hown.symm
    exact (hR.lookup_replace_of_notMem hmem).trans ht
  · intro hother
    obtain ⟨address, haddress⟩ := address_of_peer hsat howner hself (Ne.symm hother)
    have hclear : ∀ c ∈ cs, ∀ Q, read c.dest = some Q → ∀ t, R.Clear P t →
        R.Clear P (R.replace t Q (.via c.address)) := fun c hc Q hQ t ht =>
      clear_replace hR hB hsat hroom hread hcs hP hc hQ ht
    -- A command leads the address to its owner, or does nothing to it.
    have hlookup : ∀ c ∈ cs, ∀ Q, read c.dest = some Q → ∀ t, R.Clear P t →
        R.lookup (R.replace t Q (.via c.address)) a = some (.via address) ∨
          R.lookup (R.replace t Q (.via c.address)) a = R.lookup t a := by
      intro c hc Q hQ t ht
      by_cases hmem : a ∈ Q.addresses
      · obtain ⟨-, haddress', rfl⟩ := hroute c hc Q hQ hmem
        rw [Option.some.inj (haddress.symm.trans haddress')]
        exact Or.inl (hR.lookup_replace ht ha)
      · exact Or.inr (hR.lookup_replace_of_notMem hmem)
    have hP₀ := hbefore owner howner (Ne.symm hother) P hP
    refine ⟨address, haddress, fun ip hip hsuccess => ?_, fun ips hips => ?_⟩
    · obtain ⟨t, ht, hwrites⟩ := id hP
      have hc : (⟨isV6 cfg.clusterCidr, t, address⟩ : RouteCommand) ∈ cs :=
        (mem_routeCommands hcs).mpr ⟨owner, howner, Ne.symm hother, ht, haddress, rfl⟩
      have hips : ∀ i ∈ (List.range' 1 150).map ip, Replaces R read cs i := fun i hi => by
        obtain ⟨n, -, rfl⟩ := List.mem_map.mp hi
        exact hip n
      refine attempts_success (Q := fun t => R.lookup t a = some (.via address)) hips hclear ?_ hc ?_
        hP₀ hsuccess
      · exact fun c hc Q hQ t ht => (hlookup c hc Q hQ t ht.1).elim id fun h => h.trans ht.2
      · intro Q hQ t ht
        obtain rfl : P = Q := Option.some.inj ((hread _ P hwrites).symm.trans hQ)
        exact hR.lookup_replace ht ha
    · refine (attempts_invariant (I := fun t => R.Clear P t ∧
        (R.lookup t a = some (.via address) ∨ R.lookup t a = R.lookup before a)) hips ?_
          ⟨hP₀, Or.inr rfl⟩).2
      intro c hc Q hQ t ⟨ht, hmatch⟩
      exact ⟨hclear c hc Q hQ t ht, (hlookup c hc Q hQ t ht).elim Or.inl fun h => h ▸ hmatch⟩

end pods

/-- The block that a notation has, read with the functions of the modules. -/
def readBlock (t : Text) : Option Block :=
  let address : Option (Family × ℕ) :=
    if isV6 t then (v6ToHextets (cidrBase t)).map fun hs => (.v6, ofGroups 65536 hs)
    else (ipToInt (cidrBase t)).map fun n => (.v4, n.toNat)
  match address, cidrPrefix t with
  | some (family, base), some len =>
    if h : base < 2 ^ family.bits ∧ len.toNat ≤ family.bits then
      some ⟨family, base, len.toNat, h.1, h.2⟩
    else none
  | _, _ => none

theorem readBlock_writes {t : Text} {P : Block} (h : Writes t P) : readBlock t = some P := by
  obtain ⟨family, base, len, hlt, hle⟩ := P
  obtain ⟨hbase, hlen, hv6⟩ := writes_read h
  have haddress : (if isV6 t then (v6ToHextets (cidrBase t)).map fun hs =>
      (Family.v6, ofGroups 65536 hs) else (ipToInt (cidrBase t)).map fun n => (.v4, n.toNat)) =
        some (family, base) := by
    cases family with
    | v4 =>
      obtain ⟨os, hos, hn : base = _⟩ := hbase
      have hv4 : ¬ isV6 t = true := fun h => by cases hv6.mp h
      rw [if_neg hv4, ipToInt_dottedQuad hos, hn]
      rfl
    | v6 =>
      obtain ⟨hs, hhs, hn : base = _⟩ := hbase
      rw [if_pos (hv6.mpr rfl), v6ToHextets_literal hhs, hn]
      rfl
  unfold readBlock
  rw [haddress, hlen]
  exact dif_pos ⟨hlt, hle⟩

/-- The block `10.244.0.0/24`. -/
def twentyFour : Block where
  family := .v4
  base := 183762944
  len := 24
  base_lt := by decide
  len_le := by decide

/-- The destination of a default route. -/
def everywhere : Block where
  family := .v4
  base := 0
  len := 0
  base_lt := by decide
  len_le := by decide

/-- The table of a node, in which routes that are given no metric have 0, or 1024 in IPv6. -/
def nodeRouting : Routing Hop := fib Hop fun
  | .v4 => 0
  | .v6 => 1024

/-- Nothing but the bridge of the pods and a way out. -/
def bridged : List (Route Hop) :=
  [⟨twentyFour, 0, .dev "cni0".toList⟩, ⟨everywhere, 0, .dev "eth0".toList⟩]

/-- `ip` with a command that fails in two attempts, as the address of the node is not up yet. -/
def ipTwice (c : RouteCommand) (n : ℕ) (text : Text) (t : List (Route Hop)) :
    Bool × List (Route Hop) :=
  match readBlock c.dest with
  | some P => if 2 < n ∧ text = c.text then (true, nodeRouting.replace t P (.via c.address)) else (false, t)
  | none => (false, t)

theorem replaces_ipTwice (c : RouteCommand) (n : ℕ) :
    Replaces nodeRouting readBlock [c] (ipTwice c n) := by
  intro c' hc' t
  obtain rfl := List.mem_singleton.mp hc'
  have hdone : ipTwice c' n c'.text t = (false, t) ∨ ∃ P, readBlock c'.dest = some P ∧
      ipTwice c' n c'.text t = (true, nodeRouting.replace t P (.via c'.address)) := by
    unfold ipTwice
    cases readBlock c'.dest with
    | none => exact Or.inl rfl
    | some P =>
      by_cases hn : 2 < n
      · exact Or.inr ⟨P, rfl, if_pos ⟨hn, rfl⟩⟩
      · exact Or.inl (if_neg fun h => hn h.1)
  rcases hdone with hdone | ⟨P, hread, hdone⟩
  · rw [hdone]
    exact (if_neg Bool.false_ne_true).mpr rfl
  · rw [hdone]
    exact (if_pos rfl).mpr ⟨P, hread, rfl⟩

/-- The pods of the second of two nodes, from the first. -/
theorem pods_routed_aligned :
    let c : RouteCommand := ⟨false, "10.244.1.0/24".toList, "192.168.1.2".toList⟩
    ∃ P, (twoNodes "10.244.0.0/16".toList).PodSubnet ⟨some "192.168.1.2".toList, 1, .agent⟩ P ∧
      ∀ a ∈ P.addresses, nodeRouting.lookup (kubenyxRoutes [c] (ipTwice c) bridged).2 a =
        some (.via "192.168.1.2".toList) := by
  intro c
  have hB : Writes (twoNodes "10.244.0.0/16".toList).clusterCidr (sixteen 0 (by decide)) :=
    writes_sixteen 0 (by decide)
  have hroom : ∀ n ∈ (twoNodes "10.244.0.0/16".toList).nodes,
      HasRoom (sixteen 0 (by decide)) n.2.index := by
    intro n _
    refine Or.inl ?_
    have hbound := n.2.index.isLt
    show 0 / 2 ^ 8 + _ < 2 ^ 8
    omega
  have hclear : ∀ n ∈ (twoNodes "10.244.0.0/16".toList).nodes, n.1 ≠ "a".toList →
      ∀ P, (twoNodes "10.244.0.0/16".toList).PodSubnet n.2 P → nodeRouting.Clear P bridged := by
    intro n _ _ P hP r hr _
    obtain ⟨hfamily, -, hlen⟩ := (podSubnet_iff hB).mp hP
    have hshort : r.dest.len ≤ 24 ∧ r.metric = 0 := by
      rcases List.mem_cons.mp hr with rfl | hr
      · exact ⟨le_rfl, rfl⟩
      · rw [List.mem_singleton.mp hr]
        exact ⟨Nat.zero_le _, rfl⟩
    rintro (hlonger | ⟨-, hlower⟩)
    · rw [hlen] at hlonger
      exact absurd hlonger (not_lt.mpr hshort.1)
    · rw [hshort.2, hfamily] at hlower
      exact absurd hlower (lt_irrefl 0)
  have hself : ("a".toList, ⟨some "192.168.1.1".toList, 0, .server⟩) ∈
      (twoNodes "10.244.0.0/16".toList).nodes := List.mem_cons_self
  obtain ⟨cs, hcs, hall⟩ := pods_routed (R := nodeRouting) (lawful_fib _) hB (by decide +kernel) hroom
    (fun _ _ => readBlock_writes) hself hclear
  obtain rfl : [c] = cs := Option.some.inj (Eq.trans (by decide +kernel) hcs)
  obtain ⟨P, hP, -, hpods⟩ := hall ("b".toList, ⟨some "192.168.1.2".toList, 1, .agent⟩)
    (List.mem_cons_of_mem _ List.mem_cons_self)
  refine ⟨P, hP, fun a ha => ?_⟩
  obtain ⟨address, haddress, hrouted, -⟩ := (hpods a ha).2 (by decide)
  obtain rfl := Option.some.inj haddress
  exact hrouted (ipTwice c) (replaces_ipTwice c) (by decide +kernel)

end Kubenyx.Net
