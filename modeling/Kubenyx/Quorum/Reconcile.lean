import Kubenyx.Common.Machine
import Kubenyx.Common.Shell

/-!
# Growing the quorum

Model of `etcdReconcile` (modules/datastore.nix:409-568) on every server, beside the etcd
cluster whose members it manages. A round of the script reads the member list, decides from
its text on one call and makes it; until the next round the list is stale, and the calls of
other servers and the starts of members come in between. Of etcd the model has what the
script relies on: a call is refused or takes effect at once, `member add --learner` is refused
while there is a learner or when the URL is taken, and `member promote` takes effect only on a
started learner.

* `reconcile_update`, `reconcile_add`, `reconcile_record`: what a decision says of the list it
  was made from.
* `growth_safe`: over every run, no member is removed, only started learners with a declared
  URL become voting, no learner is added beside a legacy loopback URL, and a record is
  rewritten to the declared set only, from a list of exactly the declared members.
-/

namespace Kubenyx.Quorum

open Kubenyx.Common Kubenyx.Common.Shell

/-! ## Members -/

/-- A member of the cluster. Its name is empty until it starts; several URLs are joined by
    commas. -/
structure Member where
  id : Text
  name : Text
  peer : Text
  client : Text
  learner : Bool
  deriving DecidableEq

namespace Member

/-- The member has published its name. -/
def started (m : Member) : Bool := m.name ≠ []

/-- The second column of `etcdctl member list`. -/
def status (m : Member) : Text := if m.started then "started".toList else "unstarted".toList

/-- The last column. -/
def isLearner (m : Member) : Text := if m.learner then "true".toList else "false".toList

/-- The columns of `etcdctl member list`. -/
def columns (m : Member) : List Text := [m.id, m.status, m.name, m.peer, m.client, m.isLearner]

/-- The line of a member. -/
def row (m : Member) : Text :=
  m.id ++ ", ".toList ++ (m.status ++ ", ".toList ++ (m.name ++ ", ".toList ++ (m.peer ++
    ", ".toList ++ (m.client ++ ", ".toList ++ m.isLearner))))

end Member

/-- `$(ctl member list)`. -/
def memberListText (ms : List Member) : Text := joined '\n' (ms.map Member.row)

/-- A text that may stand in a column. -/
def Columnar (t : Text) : Prop := ' ' ∉ t ∧ '\n' ∉ t

instance (t : Text) : Decidable (Columnar t) := inferInstanceAs (Decidable (_ ∧ _))

/-- What holds of the members of every etcd cluster: ids, host names and URLs. -/
structure Member.WellFormed (m : Member) : Prop where
  id : Columnar m.id
  name : Columnar m.name
  peer : Columnar m.peer
  client : Columnar m.client
  peer_ne_nil : m.peer ≠ []
  peer_url : '=' ∉ m.peer

/-! ## The declaration -/

/-- The peer URL that the single-server bootstrap advertised. -/
def loopbackPeer : Text := "https://127.0.0.1:2380".toList

/-- A declared server with its `serverPeerUrl`. -/
structure Server where
  name : Text
  peer : Text
  deriving DecidableEq

/-- A host name, and the URL of a routable address. -/
structure Server.WellFormed (s : Server) : Prop where
  name_eq : '=' ∉ s.name
  name_comma : ',' ∉ s.name
  peer_eq : '=' ∉ s.peer
  peer_comma : ',' ∉ s.peer
  peer_columnar : Columnar s.peer
  peer_ne_nil : s.peer ≠ []
  peer_routable : s.peer ≠ loopbackPeer

/-- The declared servers. -/
structure Declaration where
  servers : List Server
  wellFormed : ∀ s ∈ servers, s.WellFormed

namespace Declaration

/-- `etcdInitialCluster` (datastore.nix:48-50). -/
def text (D : Declaration) : Text := joined ',' (D.servers.map fun s => s.name ++ '=' :: s.peer)

/-- The declared peer URLs. -/
def peers (D : Declaration) : List Text := D.servers.map Server.peer

end Declaration

/-! ## The script -/

/-- A membership call of the script. -/
inductive Call where
  | update (id peer : Text)
  | promote (id : Text)
  | add (name peer : Text)
  deriving DecidableEq

/-- What a round comes to. -/
inductive Decision where
  /-- Sleep, and read the list again. -/
  | again
  | call (c : Call)
  /-- Exit, with the record rewritten or not. -/
  | converged (write : Bool)
  deriving DecidableEq

/-- `declared_has_peer` (datastore.nix:443-448). -/
def declaredHasPeer (declared peer : Text) : Bool :=
  decide (('=' :: peer ++ [',']) <:+: (',' :: declared ++ [',']))

/-- `loopback` (datastore.nix:459). -/
def loopbackRows (list : Text) : Text :=
  joined '\n' (((list.splitOn '\n').filter fun row => awkField 4 row = loopbackPeer).map fun row =>
    awkField 1 row ++ ',' :: awkField 3 row)

/-- `extras` (datastore.nix:477-495), as the list of the peers. -/
def extras (declared list : Text) : List Text :=
  ((list.splitOn '\n').map (awkField 4)).filter fun peer =>
    peer ≠ [] && !declaredHasPeer declared peer

/-- `learner` (datastore.nix:501). -/
def firstLearner (list : Text) : Option Text :=
  ((list.splitOn '\n').find? fun row => awkField 6 row = "true".toList).map fun row =>
    awkField 1 row ++ ',' :: (awkField 2 row ++ ',' :: awkField 4 row)

/-- `missing` (datastore.nix:518-530). -/
def missing (declared list : Text) : Text :=
  ((fields ',' declared).find? fun m => !grepF list (afterFirst '=' m)).getD []

/-- `all_in` (datastore.nix:543-552). -/
def allIn (declared list : Text) : Bool :=
  (fields ',' declared).all fun m => (list.splitOn '\n').any fun row =>
    awkField 4 row = afterFirst '=' m ∧ awkField 2 row = "started".toList ∧
      awkField 6 row = "false".toList

/-- A round of the loop (datastore.nix:450-566) on the list that it read, with the content of
    the record. -/
def reconcile (declared self selfPeer : Text) (record : Option Text) (list : Text) : Decision :=
  let loopback := loopbackRows list
  if loopback ≠ [] then
    if afterFirst ',' loopback = self then .call (.update (beforeFirst ',' loopback) selfPeer)
    else .again
  else
    match firstLearner list with
    | some learner =>
      -- nothing is added while there is a learner, started or not
      if beforeFirst ',' (afterFirst ',' learner) = "started".toList then
        .call (.promote (beforeFirst ',' learner))
      else .again
    | none =>
      let m := missing declared list
      if m ≠ [] then .call (.add (beforeFirst '=' m) (afterFirst '=' m))
      else if allIn declared list then
        .converged (extras declared list = [] ∧ record.map substitute ≠ some declared)
      else .again

/-! ## The cluster -/

/-- What etcd makes of a call; `none` if it refuses. The id of a new member is etcd's choice. -/
def etcdCall (ms : List Member) (newId : Text) : Call → Option (List Member)
  | .update id peer =>
    if ms.any (·.id = id) then
      some (ms.map fun m => if m.id = id then { m with peer := peer } else m)
    else none
  | .promote id =>
    if ms.any (fun m => m.id = id ∧ m.learner = true ∧ m.started = true) then
      some (ms.map fun m => if m.id = id then { m with learner := false } else m)
    else none
  | .add _ peer =>
    if ms.any (·.learner) ∨ ms.any (fun m => peer ∈ m.peer.splitOn ',') ∨ ms.any (·.id = newId) ∨
        ¬ Columnar newId then none
    else some (ms ++ [⟨newId, [], peer, [], true⟩])

/-- A server: the list that its script holds, and its `.kubenyx-member-set`. -/
structure NodeState where
  held : Option (List Member)
  exited : Bool
  record : Option Text

/-- The cluster with the scripts of all servers. -/
structure Cluster (n : ℕ) where
  members : List Member
  node : Fin n → NodeState

/-- The steps of a run. -/
inductive GrowAct (n : ℕ) where
  /-- The script of a server starts: at boot, or on activation. -/
  | launch (i : Fin n)
  /-- It reads the member list, in whatever order etcd lists the members. -/
  | read (i : Fin n) (view : List Member)
  /-- It sends the call it decided on to an endpoint, again with the next one if that seems to
      fail; etcd may refuse for its own reasons. -/
  | send (i : Fin n) (newId : Text) (accepted : Bool)
  /-- It exits; writing the record may fail. -/
  | finish (i : Fin n) (written : Bool)
  /-- A member starts, or publishes another name and other client URLs. -/
  | publish (id name client : Text)

namespace Cluster

variable {D : Declaration}

/-- The cluster with another state of a server. -/
def setNode {n : ℕ} (s : Cluster n) (i : Fin n) (x : NodeState) : Cluster n :=
  { s with node := Function.update s.node i x }

@[simp] theorem setNode_members {n : ℕ} (s : Cluster n) (i : Fin n) (x : NodeState) :
    (s.setNode i x).members = s.members := rfl

@[simp] theorem setNode_node_self {n : ℕ} (s : Cluster n) (i : Fin n) (x : NodeState) :
    (s.setNode i x).node i = x := by
  simp [setNode]

theorem setNode_node_of_ne {n : ℕ} (s : Cluster n) {i j : Fin n} (h : j ≠ i) (x : NodeState) :
    (s.setNode i x).node j = s.node j := by
  simp [setNode, h]

/-- What the script of a server decides on. -/
def decision (D : Declaration) (s : Cluster D.servers.length) (i : Fin D.servers.length)
    (view : List Member) : Decision :=
  reconcile D.text (D.servers.get i).name (D.servers.get i).peer (s.node i).record
    (memberListText view)

/-- A step of the cluster. -/
def step (D : Declaration) (s : Cluster D.servers.length) :
    GrowAct D.servers.length → Option (Cluster D.servers.length)
  | .launch i => some (s.setNode i { s.node i with held := none, exited := false })
  | .read i view =>
    if (s.node i).exited = false ∧ view.Perm s.members then
      some (s.setNode i { s.node i with held := some view })
    else none
  | .send i newId accepted =>
    (s.node i).held.bind fun view =>
      match s.decision D i view with
      | .call c =>
        if accepted then (etcdCall s.members newId c).map fun ms => { s with members := ms }
        else some s
      | _ => none
  | .finish i written =>
    (s.node i).held.bind fun view =>
      match s.decision D i view with
      | .converged write =>
        let record := if write && written then some (D.text ++ ['\n']) else (s.node i).record
        some (s.setNode i ⟨none, true, record⟩)
      | _ => none
  | .publish id name client =>
    if name ≠ [] ∧ Columnar name ∧ Columnar client then
      some { s with
        members := s.members.map fun m =>
          if m.id = id then { m with name := name, client := client } else m }
    else none

end Cluster

/-! ## The columns of the list -/

section columns

variable {m : Member} {ms : List Member}

theorem columnar_status (m : Member) : Columnar m.status := by
  unfold Member.status
  cases m.started <;> decide

theorem columnar_isLearner (m : Member) : Columnar m.isLearner := by
  unfold Member.isLearner
  cases m.learner <;> decide

theorem Member.WellFormed.awkFields_row (h : m.WellFormed) : awkFields m.row = m.columns := by
  have hsep : ∀ a t : Text, a ++ ", ".toList ++ t = a ++ ',' :: ' ' :: t := by simp
  unfold Member.row Member.columns
  simp only [hsep]
  rw [awkFields_append h.id.1, awkFields_append (columnar_status m).1, awkFields_append h.name.1,
    awkFields_append h.peer.1, awkFields_append h.client.1,
    awkFields_singleton (columnar_isLearner m).1]

theorem Member.WellFormed.newline_not_mem_row (h : m.WellFormed) : '\n' ∉ m.row := by
  unfold Member.row
  simp only [List.mem_append, not_or]
  have hsep : '\n' ∉ ", ".toList := by decide
  exact ⟨⟨h.id.2, hsep⟩, ⟨(columnar_status m).2, hsep⟩, ⟨h.name.2, hsep⟩, ⟨h.peer.2, hsep⟩,
    ⟨h.client.2, hsep⟩, (columnar_isLearner m).2⟩

/-- The lines of the list are the rows of the members. -/
theorem splitOn_memberListText (h : ∀ m ∈ ms, m.WellFormed) (hne : ms ≠ []) :
    (memberListText ms).splitOn '\n' = ms.map Member.row := by
  refine List.splitOn_intercalate '\n' ?_ (by simpa using hne)
  intro row hrow
  obtain ⟨m, hm, rfl⟩ := List.mem_map.mp hrow
  exact (h m hm).newline_not_mem_row

theorem row_mem_lines (h : ∀ m ∈ ms, m.WellFormed) (hm : m ∈ ms) :
    m.row ∈ (memberListText ms).splitOn '\n' := by
  rw [splitOn_memberListText h (List.ne_nil_of_mem hm)]
  exact List.mem_map_of_mem hm

/-- A line with something in its fourth column is the row of a member. -/
theorem member_of_line (h : ∀ m ∈ ms, m.WellFormed) {line : Text}
    (hline : line ∈ (memberListText ms).splitOn '\n') (hpeer : awkField 4 line ≠ []) :
    ∃ m ∈ ms, awkFields line = m.columns := by
  by_cases hnil : ms = []
  · subst hnil
    obtain rfl : line = [] := by simpa [memberListText, joined] using hline
    exact absurd rfl hpeer
  · rw [splitOn_memberListText h hnil] at hline
    obtain ⟨m, hm, rfl⟩ := List.mem_map.mp hline
    exact ⟨m, hm, (h m hm).awkFields_row⟩

theorem isLearner_eq_true : m.isLearner = "true".toList ↔ m.learner = true := by
  unfold Member.isLearner
  cases m.learner <;> decide

theorem status_eq_started : m.status = "started".toList ↔ m.started = true := by
  unfold Member.status
  cases m.started <;> decide

end columns

/-! ## The declared entries -/

/-- An entry of the declared set. -/
def Server.entry (s : Server) : Text := s.name ++ '=' :: s.peer

section entries

variable {D : Declaration} {s : Server} {ss : List Server}

theorem Server.WellFormed.comma_not_mem_entry (h : s.WellFormed) : ',' ∉ s.entry := by
  unfold Server.entry
  simp [h.name_comma, h.peer_comma]

/-- The loop over the declared set goes through the entries of the servers. -/
theorem fields_text (D : Declaration) : fields ',' D.text = D.servers.map Server.entry := by
  by_cases hnil : D.servers = []
  · have htext : D.text = [] := by simp [Declaration.text, hnil, joined]
    rw [htext, hnil]
    rfl
  · have hsplit : D.text.splitOn ',' = D.servers.map Server.entry := by
      refine List.splitOn_intercalate ',' ?_ (by simpa using hnil)
      intro entry hentry
      obtain ⟨s, hs, rfl⟩ := List.mem_map.mp hentry
      exact (D.wellFormed s hs).comma_not_mem_entry
    rw [fields_eq_splitOn, hsplit]
    rw [hsplit, List.getLast?_map]
    cases D.servers.getLast? with
    | none => simp
    | some s => simp [Server.entry]

theorem afterFirst_entry (h : s.WellFormed) : afterFirst '=' s.entry = s.peer :=
  afterFirst_append h.name_eq

/-- The URL after an equals sign comes with a comma and at most a name after it. -/
theorem splitOn_joined_entries (h : ∀ s ∈ ss, s.WellFormed) {part : Text}
    (hpart : part ∈ ((joined ',' (ss.map Server.entry) ++ [',']).splitOn '=').tail) :
    ∃ s ∈ ss, ∃ rest, ',' ∉ rest ∧ part = s.peer ++ ',' :: rest := by
  induction ss with
  | nil => exact absurd hpart (by decide +revert)
  | cons s ss ih =>
    obtain ⟨hs, hss⟩ := List.forall_mem_cons.mp h
    cases ss with
    | nil =>
      have htext : joined ',' ([s].map Server.entry) ++ [','] = s.name ++ '=' :: (s.peer ++ [',']) := by
        simp [joined, Server.entry]
      have hpeer : '=' ∉ s.peer ++ [','] := by simp [hs.peer_eq]
      rw [htext, List.splitOn_append_cons_self_of_not_mem hs.name_eq,
        List.splitOn_eq_singleton hpeer] at hpart
      exact ⟨s, List.mem_cons_self, [], by simp, by simpa using hpart⟩
    | cons s' ss =>
      obtain ⟨hs', -⟩ := List.forall_mem_cons.mp hss
      obtain ⟨r, hr⟩ : ∃ r, joined ',' ((s' :: ss).map Server.entry) ++ [','] = s'.name ++ '=' :: r := by
        cases ss <;> simp [joined, Server.entry]
      have hmid : '=' ∉ s.peer ++ ',' :: s'.name := by simp [hs.peer_eq, hs'.name_eq]
      have htext : joined ',' ((s :: s' :: ss).map Server.entry) ++ [','] =
          s.name ++ '=' :: ((s.peer ++ ',' :: s'.name) ++ '=' :: r) := by
        rw [List.map_cons, List.map_cons, joined_cons_cons, List.append_assoc, List.cons_append,
          ← List.map_cons, hr]
        simp [Server.entry]
      rw [htext, List.splitOn_append_cons_self_of_not_mem hs.name_eq,
        List.splitOn_append_cons_self_of_not_mem hmid, List.tail_cons] at hpart
      rcases List.mem_cons.mp hpart with rfl | hpart
      · exact ⟨s, List.mem_cons_self, s'.name, hs'.name_comma, rfl⟩
      · rw [hr, List.splitOn_append_cons_self_of_not_mem hs'.name_eq, List.tail_cons] at ih
        obtain ⟨t, ht, hrest⟩ := ih hss hpart
        exact ⟨t, List.mem_cons_of_mem _ ht, hrest⟩

/-- With one comma in a text there is one way to cut it there. -/
theorem cut_unique {a b c d : Text} (hc : ',' ∉ c) (hd : ',' ∉ d)
    (h : a ++ ',' :: b = c ++ ',' :: d) : a = c := by
  have hparts := congrArg (List.splitOn ',') h
  rw [List.splitOn_append_cons_self, List.splitOn_append_cons_self_of_not_mem hc,
    List.splitOn_eq_singleton hd] at hparts
  obtain ⟨x, xs, hx⟩ := List.exists_cons_of_ne_nil (List.splitOn_ne_nil ',' a)
  obtain ⟨y, ys, hy⟩ := List.exists_cons_of_ne_nil (List.splitOn_ne_nil ',' b)
  rw [hx, hy] at hparts
  have hlength := congrArg List.length hparts
  simp only [List.length_append, List.length_cons, List.length_nil] at hlength
  obtain rfl : xs = [] := List.length_eq_zero_iff.mp (by omega)
  obtain rfl : x = c := (List.cons.inj hparts).1
  have hjoin : [','].intercalate (a.splitOn ',') = a := List.intercalate_splitOn ','
  rw [hx] at hjoin
  simpa using hjoin.symm

/-- The `case` test finds only declared URLs: the equals sign and the comma on its sides are
    those of an entry. -/
theorem mem_peers_of_declaredHasPeer {peer : Text} (hpeer : '=' ∉ peer)
    (h : declaredHasPeer D.text peer = true) : peer ∈ D.peers := by
  obtain ⟨a, b, hab⟩ := of_decide_eq_true h
  -- the part after the equals sign of the pattern
  obtain ⟨y, ys, hy⟩ : ∃ y ys, (peer ++ ',' :: b).splitOn '=' = (peer ++ ',' :: y) :: ys := by
    by_cases hb : '=' ∈ b
    · obtain ⟨b₁, b₂, rfl, hb₁⟩ := List.eq_append_cons_of_mem hb
      refine ⟨b₁, b₂.splitOn '=', ?_⟩
      rw [← List.splitOn_append_cons_self_of_not_mem (show '=' ∉ peer ++ ',' :: b₁ by
        simp [hpeer, hb₁])]
      simp
    · exact ⟨b, [], List.splitOn_eq_singleton (by simp [hpeer, hb])⟩
  have hwhole : (',' :: D.text ++ [',']).splitOn '=' =
      a.splitOn '=' ++ (peer ++ ',' :: y) :: ys := by
    rw [← hy, ← List.splitOn_append_cons_self, ← hab]
    simp
  have htail : peer ++ ',' :: y ∈ ((D.text ++ [',']).splitOn '=').tail := by
    obtain ⟨z, zs, hz⟩ := List.exists_cons_of_ne_nil (List.splitOn_ne_nil '=' a)
    obtain ⟨w, ws, hw⟩ := List.exists_cons_of_ne_nil (List.splitOn_ne_nil '=' (D.text ++ [',']))
    rw [List.cons_append, List.splitOn_cons_eq_if_modifyHead, if_neg (by decide), hw, hz,
      List.modifyHead_cons] at hwhole
    rw [hw, List.tail_cons, (List.cons.inj hwhole).2]
    simp
  obtain ⟨s, hs, rest, hrest, heq⟩ := splitOn_joined_entries D.wellFormed htail
  rw [cut_unique (D.wellFormed s hs).peer_comma hrest heq]
  exact List.mem_map_of_mem hs

end entries

/-! ## What a decision says of its list -/

section decisions

variable {D : Declaration} {ms : List Member} {self selfPeer id peer name : Text}
  {record : Option Text}

theorem no_loopback (h : ∀ m ∈ ms, m.WellFormed) (hnone : loopbackRows (memberListText ms) = []) :
    ∀ m ∈ ms, m.peer ≠ loopbackPeer := by
  intro m hm hpeer
  have hrow : awkField 4 m.row = loopbackPeer := by
    unfold awkField
    rw [(h m hm).awkFields_row]
    exact hpeer
  have hcomma : ',' ∈ loopbackRows (memberListText ms) := by
    refine mem_joined_of_mem (List.mem_map_of_mem (List.mem_filter.mpr
      ⟨row_mem_lines h hm, decide_eq_true hrow⟩)) ?_
    simp
  rw [hnone] at hcomma
  exact absurd hcomma (by simp)

/-- All that a round can come to. -/
theorem reconcile_cases (declared self selfPeer : Text) (record : Option Text) (list : Text) :
    reconcile declared self selfPeer record list = .again ∨
    (∃ id, reconcile declared self selfPeer record list = .call (.update id selfPeer)) ∨
    (∃ id, reconcile declared self selfPeer record list = .call (.promote id)) ∨
    (loopbackRows list = [] ∧ missing declared list ≠ [] ∧
      reconcile declared self selfPeer record list =
        .call (.add (beforeFirst '=' (missing declared list))
          (afterFirst '=' (missing declared list)))) ∨
    (firstLearner list = none ∧ allIn declared list = true ∧
      reconcile declared self selfPeer record list =
        .converged (extras declared list = [] ∧ record.map substitute ≠ some declared)) := by
  unfold reconcile
  dsimp only
  by_cases hloop : loopbackRows list = []
  · rw [if_neg (not_not.mpr hloop)]
    cases hlearner : firstLearner list with
    | some learner =>
      dsimp only
      split_ifs
      · exact Or.inr (Or.inr (Or.inl ⟨_, rfl⟩))
      · exact Or.inl rfl
    | none =>
      dsimp only
      split_ifs with hmissing hall
      · exact Or.inr (Or.inr (Or.inr (Or.inl ⟨hloop, hmissing, rfl⟩)))
      · exact Or.inr (Or.inr (Or.inr (Or.inr ⟨rfl, hall, rfl⟩)))
      · exact Or.inl rfl
  · rw [if_pos hloop]
    split_ifs
    · exact Or.inr (Or.inl ⟨_, rfl⟩)
    · exact Or.inl rfl

theorem reconcile_update {list : Text}
    (h : reconcile D.text self selfPeer record list = .call (.update id peer)) :
    peer = selfPeer := by
  obtain heq | ⟨_, heq⟩ | ⟨_, heq⟩ | ⟨-, -, heq⟩ | ⟨-, -, heq⟩ :=
    reconcile_cases D.text self selfPeer record list <;> rw [h] at heq <;> cases heq
  rfl

/-- An add is decided on when no member has the loopback URL, and is of a declared URL. -/
theorem reconcile_add (hms : ∀ m ∈ ms, m.WellFormed)
    (h : reconcile D.text self selfPeer record (memberListText ms) = .call (.add name peer)) :
    (∀ m ∈ ms, m.peer ≠ loopbackPeer) ∧ peer ∈ D.peers := by
  obtain heq | ⟨_, heq⟩ | ⟨_, heq⟩ | ⟨hloop, hmissing, heq⟩ | ⟨-, -, heq⟩ :=
    reconcile_cases D.text self selfPeer record (memberListText ms) <;> rw [h] at heq <;> cases heq
  refine ⟨no_loopback hms hloop, ?_⟩
  unfold missing at hmissing ⊢
  cases hfind : (fields ',' D.text).find? fun m => !grepF (memberListText ms) (afterFirst '=' m) with
  | none =>
    rw [hfind] at hmissing
    exact absurd rfl hmissing
  | some m =>
    have hmem := List.mem_of_find?_eq_some hfind
    rw [fields_text] at hmem
    obtain ⟨s, hs, rfl⟩ := List.mem_map.mp hmem
    rw [Option.getD_some, afterFirst_entry (D.wellFormed s hs)]
    exact List.mem_map_of_mem hs

/-- The members are exactly the declared ones: no other, no learner, and each declared one
    started and voting. -/
structure Matches (D : Declaration) (view : List Member) : Prop where
  declared : ∀ m ∈ view, m.peer ∈ D.peers
  voting : ∀ m ∈ view, m.learner = false
  started : ∀ p ∈ D.peers, ∃ m ∈ view, m.peer = p ∧ m.started = true

/-- Where no two members share a URL, all of them are started. -/
theorem Matches.all_started {view : List Member} (h : Matches D view)
    (hnodup : (view.map Member.peer).Nodup) : ∀ m ∈ view, m.started = true := by
  intro m hm
  obtain ⟨m', hm', hpeer, hstarted⟩ := h.started m.peer (h.declared m hm)
  rwa [List.inj_on_of_nodup_map hnodup hm' hm hpeer] at hstarted

theorem declared_of_extras (hms : ∀ m ∈ ms, m.WellFormed)
    (h : extras D.text (memberListText ms) = []) : ∀ m ∈ ms, m.peer ∈ D.peers := by
  intro m hm
  refine mem_peers_of_declaredHasPeer (hms m hm).peer_url ?_
  have hrow : m.peer ∈ ((memberListText ms).splitOn '\n').map (awkField 4) := by
    refine List.mem_map.mpr ⟨m.row, row_mem_lines hms hm, ?_⟩
    unfold awkField
    rw [(hms m hm).awkFields_row]
    rfl
  have hkept := List.filter_eq_nil_iff.mp h m.peer hrow
  simpa [(hms m hm).peer_ne_nil] using hkept

theorem voting_of_firstLearner (hms : ∀ m ∈ ms, m.WellFormed)
    (h : firstLearner (memberListText ms) = none) : ∀ m ∈ ms, m.learner = false := by
  intro m hm
  have hrow := List.find?_eq_none.mp (Option.map_eq_none_iff.mp h) m.row (row_mem_lines hms hm)
  unfold awkField at hrow
  rw [(hms m hm).awkFields_row, decide_eq_true_eq] at hrow
  exact Bool.eq_false_iff.mpr fun hlearner => hrow (isLearner_eq_true.mpr hlearner)

theorem started_of_allIn (hms : ∀ m ∈ ms, m.WellFormed)
    (h : allIn D.text (memberListText ms) = true) :
    ∀ p ∈ D.peers, ∃ m ∈ ms, m.peer = p ∧ m.started = true := by
  intro p hp
  obtain ⟨s, hs, rfl⟩ := List.mem_map.mp hp
  unfold allIn at h
  rw [fields_text] at h
  have hline := List.all_eq_true.mp h s.entry (List.mem_map_of_mem hs)
  obtain ⟨line, hline, hcols⟩ := List.any_eq_true.mp hline
  rw [afterFirst_entry (D.wellFormed s hs), decide_eq_true_eq] at hcols
  obtain ⟨hpeer, hstatus, -⟩ := hcols
  obtain ⟨m, hm, hfields⟩ := member_of_line hms hline (by
    rw [hpeer]
    exact (D.wellFormed s hs).peer_ne_nil)
  unfold awkField at hpeer hstatus
  rw [hfields] at hpeer hstatus
  exact ⟨m, hm, hpeer, status_eq_started.mp hstatus⟩

/-- A record is rewritten from a list that matches the declaration. -/
theorem reconcile_record (hms : ∀ m ∈ ms, m.WellFormed)
    (h : reconcile D.text self selfPeer record (memberListText ms) = .converged true) :
    Matches D ms := by
  obtain heq | ⟨_, heq⟩ | ⟨_, heq⟩ | ⟨-, -, heq⟩ | ⟨hlearner, hall, heq⟩ :=
    reconcile_cases D.text self selfPeer record (memberListText ms) <;> rw [h] at heq
  case inr.inr.inr.inr =>
    have hwrite := of_decide_eq_true (Decision.converged.inj heq).symm
    exact ⟨declared_of_extras hms hwrite.1, voting_of_firstLearner hms hlearner,
      started_of_allIn hms hall⟩
  all_goals cases heq

end decisions

/-! ## Runs -/

section runs

variable {D : Declaration} {s s' : Cluster D.servers.length} {a : GrowAct D.servers.length}

/-- What a step does to the members: nothing, the call of some server's decision, or a start. -/
inductive MembersStep (D : Declaration) (s : Cluster D.servers.length) : List Member → Prop
  | same : MembersStep D s s.members
  | update {i : Fin D.servers.length} {view : List Member} {id peer : Text}
      (hheld : (s.node i).held = some view) (hcall : s.decision D i view = .call (.update id peer)) :
      MembersStep D s (s.members.map fun m => if m.id = id then { m with peer := peer } else m)
  | promote {id : Text} (hlearner : ∃ m ∈ s.members, m.id = id ∧ m.learner = true ∧ m.started = true) :
      MembersStep D s (s.members.map fun m => if m.id = id then { m with learner := false } else m)
  | add {i : Fin D.servers.length} {view : List Member} {name peer newId : Text}
      (hheld : (s.node i).held = some view) (hcall : s.decision D i view = .call (.add name peer))
      (hfresh : ∀ m ∈ s.members, m.id ≠ newId) (hid : Columnar newId) :
      MembersStep D s (s.members ++ [⟨newId, [], peer, [], true⟩])
  | publish {id name client : Text} (hname : Columnar name) (hclient : Columnar client) :
      MembersStep D s (s.members.map fun m =>
        if m.id = id then { m with name := name, client := client } else m)

theorem membersStep_call {i : Fin D.servers.length} {view ms : List Member} {newId : Text} {c : Call}
    (hheld : (s.node i).held = some view) (hcall : s.decision D i view = .call c)
    (h : etcdCall s.members newId c = some ms) : MembersStep D s ms := by
  cases c with
  | update id peer =>
    unfold etcdCall at h
    dsimp only at h
    split_ifs at h
    obtain rfl := Option.some.inj h
    exact .update hheld hcall
  | promote id =>
    unfold etcdCall at h
    dsimp only at h
    split_ifs at h with hany
    obtain rfl := Option.some.inj h
    refine .promote ?_
    simpa using hany
  | add name peer =>
    unfold etcdCall at h
    dsimp only at h
    split_ifs at h with hrefused
    obtain rfl := Option.some.inj h
    simp only [not_or, not_not, List.any_eq_true, not_exists, not_and, decide_eq_true_eq] at hrefused
    exact .add hheld hcall hrefused.2.2.1 hrefused.2.2.2

/-- What a step does to the server that takes it. -/
inductive NodeStep (D : Declaration) (s : Cluster D.servers.length) (i : Fin D.servers.length) :
    NodeState → Prop
  | launch : NodeStep D s i { s.node i with held := none, exited := false }
  | read {view : List Member} (hperm : view.Perm s.members) :
      NodeStep D s i { s.node i with held := some view }
  | finish {view : List Member} {write : Bool} (written : Bool) (hheld : (s.node i).held = some view)
      (hconv : s.decision D i view = .converged write) :
      NodeStep D s i
        ⟨none, true, if write && written then some (D.text ++ ['\n']) else (s.node i).record⟩

/-- A step changes the members or one server, not both. -/
theorem step_cases (h : s.step D a = some s') :
    (s'.node = s.node ∧ MembersStep D s s'.members) ∨
      ∃ i x, s' = s.setNode i x ∧ NodeStep D s i x := by
  cases a with
  | launch i =>
    obtain rfl := Option.some.inj h
    exact Or.inr ⟨i, _, rfl, .launch⟩
  | read i view =>
    unfold Cluster.step at h
    dsimp only at h
    split_ifs at h with hread
    obtain rfl := Option.some.inj h
    exact Or.inr ⟨i, _, rfl, .read hread.2⟩
  | send i newId accepted =>
    obtain ⟨view, hheld, h⟩ := Option.bind_eq_some_iff.mp h
    split at h
    case h_1 c hcall =>
      split_ifs at h
      · obtain ⟨ms, hms, rfl⟩ := Option.map_eq_some_iff.mp h
        exact Or.inl ⟨rfl, membersStep_call hheld hcall hms⟩
      · obtain rfl := Option.some.inj h
        exact Or.inl ⟨rfl, .same⟩
    case h_2 => cases h
  | finish i written =>
    obtain ⟨view, hheld, h⟩ := Option.bind_eq_some_iff.mp h
    split at h
    case h_1 write hconv =>
      obtain rfl := Option.some.inj h
      exact Or.inr ⟨i, _, rfl, .finish written hheld hconv⟩
    case h_2 => cases h
  | publish id name client =>
    unfold Cluster.step at h
    dsimp only at h
    split_ifs at h with hname
    obtain rfl := Option.some.inj h
    exact Or.inl ⟨rfl, .publish hname.2.1 hname.2.2⟩

theorem members_step (h : s.step D a = some s') : MembersStep D s s'.members := by
  obtain ⟨-, hmembers⟩ | ⟨i, x, rfl, -⟩ := step_cases h
  · exact hmembers
  · exact .same

/-- The list that a server holds is an old one or the present members. -/
theorem held_step (h : s.step D a = some s') {j : Fin D.servers.length} {view : List Member}
    (hview : (s'.node j).held = some view) :
    (s.node j).held = some view ∨ view.Perm s.members := by
  obtain ⟨hnode, -⟩ | ⟨i, x, rfl, hstep⟩ := step_cases h
  · rw [hnode] at hview
    exact Or.inl hview
  · by_cases hj : j = i
    · subst hj
      rw [Cluster.setNode_node_self] at hview
      cases hstep with
      | launch => exact absurd hview (by simp)
      | read hperm =>
        obtain rfl := Option.some.inj hview
        exact Or.inr hperm
      | finish => exact absurd hview (by simp)
    · rw [Cluster.setNode_node_of_ne s hj] at hview
      exact Or.inl hview

/-- A record that changes becomes the declared set, written from the list that the server
    held. -/
theorem record_step (h : s.step D a = some s') {j : Fin D.servers.length}
    (hne : (s'.node j).record ≠ (s.node j).record) :
    (s'.node j).record = some (D.text ++ ['\n']) ∧
      ∃ view, (s.node j).held = some view ∧ s.decision D j view = .converged true := by
  obtain ⟨hnode, -⟩ | ⟨i, x, rfl, hstep⟩ := step_cases h
  · exact absurd (by rw [hnode]) hne
  · by_cases hj : j = i
    · subst hj
      rw [Cluster.setNode_node_self] at hne ⊢
      cases hstep with
      | launch => exact absurd rfl hne
      | read => exact absurd rfl hne
      | @finish view write written hheld hconv =>
        dsimp only at hne ⊢
        split_ifs at hne ⊢ with hwrite
        · obtain ⟨rfl, -⟩ := Bool.and_eq_true_iff.mp hwrite
          exact ⟨rfl, view, hheld, hconv⟩
        · exact absurd rfl hne
    · exact absurd (by rw [Cluster.setNode_node_of_ne s hj]) hne

/-- What holds in every state: a list that shows no loopback URL was read when there was none,
    and none comes back. -/
structure GrowInv (D : Declaration) (s : Cluster D.servers.length) : Prop where
  wellFormed : ∀ m ∈ s.members, m.WellFormed
  nodup : (s.members.map Member.id).Nodup
  learners : ∀ m ∈ s.members, m.learner = true → m.peer ∈ D.peers
  held_wellFormed : ∀ i view, (s.node i).held = some view → ∀ m ∈ view, m.WellFormed
  held_loopback : ∀ i view, (s.node i).held = some view → (∀ m ∈ view, m.peer ≠ loopbackPeer) →
    ∀ m ∈ s.members, m.peer ≠ loopbackPeer

/-- A change of one member that keeps its id. -/
theorem mem_map_ite {ms : List Member} {id : Text} {f : Member → Member} {m' : Member}
    (h : m' ∈ ms.map fun m => if m.id = id then f m else m) :
    ∃ m ∈ ms, m' = m ∨ (m.id = id ∧ m' = f m) := by
  obtain ⟨m, hm, rfl⟩ := List.mem_map.mp h
  refine ⟨m, hm, ?_⟩
  split_ifs with hid
  · exact Or.inr ⟨hid, rfl⟩
  · exact Or.inl rfl

theorem ids_map_ite {ms : List Member} {id : Text} {f : Member → Member}
    (hf : ∀ m, (f m).id = m.id) :
    (ms.map fun m => if m.id = id then f m else m).map Member.id = ms.map Member.id := by
  rw [List.map_map]
  refine List.map_congr_left fun m _ => ?_
  rw [Function.comp_apply]
  split_ifs
  · exact hf m
  · rfl

/-- The ids stay, and only an add brings another. -/
theorem ids_step {ms : List Member} (h : MembersStep D s ms) :
    ms.map Member.id = s.members.map Member.id ∨
      ∃ i view name peer newId, (s.node i).held = some view ∧
        s.decision D i view = .call (.add name peer) ∧ (∀ m ∈ s.members, m.id ≠ newId) ∧
        ms = s.members ++ [⟨newId, [], peer, [], true⟩] := by
  cases h with
  | same => exact Or.inl rfl
  | update => exact Or.inl (ids_map_ite (by intro _; rfl))
  | promote => exact Or.inl (ids_map_ite (by intro _; rfl))
  | @add i view name peer newId hheld hcall hfresh hid =>
    exact Or.inr ⟨i, view, name, peer, newId, hheld, hcall, hfresh, rfl⟩
  | publish => exact Or.inl (ids_map_ite (by intro _; rfl))

/-- The URL of a server is a declared one. -/
theorem selfPeer_mem (i : Fin D.servers.length) :
    (D.servers.get i).WellFormed ∧ (D.servers.get i).peer ∈ D.peers :=
  ⟨D.wellFormed _ (List.get_mem ..), List.mem_map_of_mem (List.get_mem ..)⟩

/-- What the members of the next state come from. -/
theorem member_origin (hinv : GrowInv D s) {ms : List Member} (h : MembersStep D s ms) :
    ∀ m' ∈ ms, m'.WellFormed ∧ (m'.learner = true → m'.peer ∈ D.peers) ∧
      (m'.peer = loopbackPeer → ∃ m ∈ s.members, m.peer = loopbackPeer) := by
  intro m' hm'
  have hold : ∀ m ∈ s.members, m.WellFormed ∧ (m.learner = true → m.peer ∈ D.peers) ∧
      (m.peer = loopbackPeer → ∃ m ∈ s.members, m.peer = loopbackPeer) := fun m hm =>
    ⟨hinv.wellFormed m hm, hinv.learners m hm, fun hloop => ⟨m, hm, hloop⟩⟩
  cases h with
  | same => exact hold m' hm'
  | @update i view id peer hheld hcall =>
    obtain ⟨m, hm, rfl | ⟨-, rfl⟩⟩ := mem_map_ite hm'
    · exact hold m' hm
    · obtain rfl := reconcile_update hcall
      obtain ⟨hserver, hmem⟩ := selfPeer_mem i
      have hwf := hinv.wellFormed m hm
      refine ⟨⟨hwf.id, hwf.name, hserver.peer_columnar, hwf.client, hserver.peer_ne_nil,
        hserver.peer_eq⟩, fun _ => hmem, fun hloop => absurd hloop hserver.peer_routable⟩
  | promote hlearner =>
    obtain ⟨m, hm, rfl | ⟨-, rfl⟩⟩ := mem_map_ite hm'
    · exact hold m' hm
    · obtain ⟨hwf, -, hloop⟩ := hold m hm
      exact ⟨⟨hwf.id, hwf.name, hwf.peer, hwf.client, hwf.peer_ne_nil, hwf.peer_url⟩, by simp, hloop⟩
  | @add i view name peer newId hheld hcall hfresh hid =>
    rcases List.mem_append.mp hm' with hm' | hm'
    · exact hold m' hm'
    · obtain rfl := List.mem_singleton.mp hm'
      obtain ⟨-, hmem⟩ := reconcile_add (hinv.held_wellFormed i view hheld) hcall
      obtain ⟨server, hserver, rfl⟩ := List.mem_map.mp hmem
      have hwf := D.wellFormed server hserver
      have hempty : Columnar [] := by decide
      refine ⟨⟨hid, hempty, hwf.peer_columnar, hempty, hwf.peer_ne_nil, hwf.peer_eq⟩,
        fun _ => hmem, fun hloop => absurd hloop hwf.peer_routable⟩
  | publish hname hclient =>
    obtain ⟨m, hm, rfl | ⟨-, rfl⟩⟩ := mem_map_ite hm'
    · exact hold m' hm
    · obtain ⟨hwf, hlearner, hloop⟩ := hold m hm
      exact ⟨⟨hwf.id, hname, hwf.peer, hclient, hwf.peer_ne_nil, hwf.peer_url⟩, hlearner, hloop⟩

theorem nodup_step (hinv : GrowInv D s) {ms : List Member} (h : MembersStep D s ms) :
    (ms.map Member.id).Nodup := by
  obtain hids | ⟨i, view, name, peer, newId, -, -, hfresh, rfl⟩ := ids_step h
  · rw [hids]
    exact hinv.nodup
  · rw [List.map_append, List.nodup_append]
    refine ⟨hinv.nodup, by simp, ?_⟩
    intro x hx y hy hxy
    obtain ⟨m, hm, rfl⟩ := List.mem_map.mp hx
    exact hfresh m hm (hxy.trans (by simpa using hy))

theorem growInv_step (hinv : GrowInv D s) (h : s.step D a = some s') : GrowInv D s' := by
  have hmembers := members_step h
  have horigin := member_origin hinv hmembers
  refine ⟨fun m hm => (horigin m hm).1, nodup_step hinv hmembers, fun m hm => (horigin m hm).2.1, ?_, ?_⟩
  · intro i view hview
    rcases held_step h hview with hold | hperm
    · exact hinv.held_wellFormed i view hold
    · exact fun m hm => hinv.wellFormed m (hperm.subset hm)
  · intro i view hview hnone m hm hloop
    obtain ⟨m₀, hm₀, hloop₀⟩ := (horigin m hm).2.2 hloop
    rcases held_step h hview with hold | hperm
    · exact hinv.held_loopback i view hold hnone m₀ hm₀ hloop₀
    · exact hnone m₀ (hperm.symm.subset hm₀) hloop₀

/-- A cluster without learners, before any script has read its members. -/
structure Initial (s : Cluster D.servers.length) : Prop where
  wellFormed : ∀ m ∈ s.members, m.WellFormed
  nodup : (s.members.map Member.id).Nodup
  no_learner : ∀ m ∈ s.members, m.learner = false
  not_held : ∀ i, (s.node i).held = none

theorem Initial.growInv (h : Initial s) : GrowInv D s where
  wellFormed := h.wellFormed
  nodup := h.nodup
  learners m hm hlearner := by
    rw [h.no_learner m hm] at hlearner
    exact absurd hlearner (by decide)
  held_wellFormed i view hview := by
    rw [h.not_held i] at hview
    exact absurd hview (by simp)
  held_loopback i view hview := by
    rw [h.not_held i] at hview
    exact absurd hview (by simp)

/-- What the growth is promised to do in one step: to remove no member, to make none voting but
    a started learner with a declared URL, to add members as learners only and only when none has
    the loopback URL, and to rewrite a record to the declared set only, from a list of exactly the
    declared members. -/
structure SafeStep (D : Declaration) (s s' : Cluster D.servers.length) : Prop where
  kept : ∀ m ∈ s.members, ∃ m' ∈ s'.members, m'.id = m.id
  voting : ∀ m' ∈ s'.members, m'.learner = false →
    (∃ m ∈ s.members, m.id = m'.id ∧ m.learner = false) ∨
      ∃ m ∈ s.members, m.id = m'.id ∧ m.learner = true ∧ m.started = true ∧ m.peer ∈ D.peers
  added : ∀ m' ∈ s'.members, (∀ m ∈ s.members, m.id ≠ m'.id) →
    m'.learner = true ∧ ∀ m ∈ s.members, m.peer ≠ loopbackPeer
  recorded : ∀ i, (s'.node i).record ≠ (s.node i).record →
    (s'.node i).record = some (D.text ++ ['\n']) ∧
      ∃ view, (s.node i).held = some view ∧ Matches D view ∧
        ((view.map Member.peer).Nodup → ∀ m ∈ view, m.started = true)

theorem kept_step {ms : List Member} (h : MembersStep D s ms) :
    ∀ m ∈ s.members, ∃ m' ∈ ms, m'.id = m.id := by
  intro m hm
  obtain hids | ⟨i, view, name, peer, newId, -, -, -, rfl⟩ := ids_step h
  · have hmem : m.id ∈ ms.map Member.id := hids ▸ List.mem_map_of_mem hm
    obtain ⟨m', hm', hid⟩ := List.mem_map.mp hmem
    exact ⟨m', hm', hid⟩
  · exact ⟨m, List.mem_append_left _ hm, rfl⟩

theorem voting_step (hinv : GrowInv D s) {ms : List Member} (h : MembersStep D s ms) :
    ∀ m' ∈ ms, m'.learner = false → (∃ m ∈ s.members, m.id = m'.id ∧ m.learner = false) ∨
      ∃ m ∈ s.members, m.id = m'.id ∧ m.learner = true ∧ m.started = true ∧ m.peer ∈ D.peers := by
  intro m' hm' hvoting
  cases h with
  | same => exact Or.inl ⟨m', hm', rfl, hvoting⟩
  | update =>
    obtain ⟨m, hm, rfl | ⟨-, rfl⟩⟩ := mem_map_ite hm'
    · exact Or.inl ⟨m', hm, rfl, hvoting⟩
    · exact Or.inl ⟨m, hm, rfl, hvoting⟩
  | promote hlearner =>
    obtain ⟨m, hm, rfl | ⟨hid, rfl⟩⟩ := mem_map_ite hm'
    · exact Or.inl ⟨m', hm, rfl, hvoting⟩
    · -- etcd looked at the member with this id, and there is one
      obtain ⟨l, hl, hlid, hlearner, hstarted⟩ := hlearner
      obtain rfl : l = m := List.inj_on_of_nodup_map hinv.nodup hl hm (hlid.trans hid.symm)
      exact Or.inr ⟨l, hm, rfl, hlearner, hstarted, hinv.learners l hm hlearner⟩
  | add =>
    rcases List.mem_append.mp hm' with hm' | hm'
    · exact Or.inl ⟨m', hm', rfl, hvoting⟩
    · obtain rfl := List.mem_singleton.mp hm'
      exact absurd hvoting (by simp)
  | publish =>
    obtain ⟨m, hm, rfl | ⟨-, rfl⟩⟩ := mem_map_ite hm'
    · exact Or.inl ⟨m', hm, rfl, hvoting⟩
    · exact Or.inl ⟨m, hm, rfl, hvoting⟩

theorem added_step (hinv : GrowInv D s) {ms : List Member} (h : MembersStep D s ms) :
    ∀ m' ∈ ms, (∀ m ∈ s.members, m.id ≠ m'.id) →
      m'.learner = true ∧ ∀ m ∈ s.members, m.peer ≠ loopbackPeer := by
  intro m' hm' hnew
  obtain hids | ⟨i, view, name, peer, newId, hheld, hcall, -, rfl⟩ := ids_step h
  · have hmem : m'.id ∈ s.members.map Member.id := hids ▸ List.mem_map_of_mem hm'
    obtain ⟨m, hm, hid⟩ := List.mem_map.mp hmem
    exact absurd hid (hnew m hm)
  · rcases List.mem_append.mp hm' with hm' | hm'
    · exact absurd rfl (hnew m' hm')
    · obtain rfl := List.mem_singleton.mp hm'
      have hnone := (reconcile_add (hinv.held_wellFormed i view hheld) hcall).1
      exact ⟨rfl, hinv.held_loopback i view hheld hnone⟩

theorem safeStep (hinv : GrowInv D s) (h : s.step D a = some s') : SafeStep D s s' where
  kept := kept_step (members_step h)
  voting := voting_step hinv (members_step h)
  added := added_step hinv (members_step h)
  recorded i hne := by
    obtain ⟨hrecord, view, hheld, hconv⟩ := record_step h hne
    have hmatches := reconcile_record (hinv.held_wellFormed i view hheld) hconv
    exact ⟨hrecord, view, hheld, hmatches, hmatches.all_started⟩

/-- Every step of every run from a cluster without learners is safe, and all members that the
    cluster began with are still there. -/
theorem growth_safe (D : Declaration) {s₀ s s' : Cluster D.servers.length}
    {as : List (GrowAct D.servers.length)} {a : GrowAct D.servers.length} (hinit : Initial s₀)
    (hrun : exec (Cluster.step D) s₀ as = some s) (hstep : s.step D a = some s') :
    SafeStep D s s' ∧ ∀ m ∈ s₀.members, ∃ m' ∈ s'.members, m'.id = m.id := by
  have hinv : GrowInv D s := exec_invariant (fun _ _ _ h hs => growInv_step hs h) hrun hinit.growInv
  have hkept : ∀ m ∈ s₀.members, ∃ m' ∈ s.members, m'.id = m.id := by
    refine @exec_invariant _ _ _ _ _ _
      (fun s => ∀ m ∈ s₀.members, ∃ m' ∈ s.members, m'.id = m.id) ?_ hrun fun m hm => ⟨m, hm, rfl⟩
    intro t b t' ht hall m hm
    obtain ⟨m', hm', hid⟩ := hall m hm
    obtain ⟨m'', hm'', hid'⟩ := kept_step (members_step ht) m' hm'
    exact ⟨m'', hm'', hid'.trans hid⟩
  refine ⟨safeStep hinv hstep, fun m hm => ?_⟩
  obtain ⟨m', hm', hid⟩ := hkept m hm
  obtain ⟨m'', hm'', hid'⟩ := kept_step (members_step hstep) m' hm'
  exact ⟨m'', hm'', hid'.trans hid⟩

end runs

/-- Two servers. -/
def grown : Declaration where
  servers := [⟨"a".toList, "https://10.0.0.1:2380".toList⟩, ⟨"b".toList, "https://10.0.0.2:2380".toList⟩]
  wellFormed := by
    intro s hs
    rcases List.mem_pair.mp hs with rfl | rfl
    · exact ⟨by decide, by decide, by decide, by decide, by decide, by decide, by decide⟩
    · exact ⟨by decide, by decide, by decide, by decide, by decide, by decide, by decide⟩

/-- The member that a single server bootstrapped, with its URL. -/
def bootstrapped (peer : Text) : Member where
  id := "8e9e05c52164694d".toList
  name := "a".toList
  peer := peer
  client := "https://127.0.0.1:2379".toList
  learner := false

/-- The cluster of that member, before any script has run. -/
def legacyCluster : Cluster grown.servers.length where
  members := [bootstrapped loopbackPeer]
  node _ := ⟨none, false, none⟩

/-- Server `a` moves the legacy URL, then server `b` reads the list. -/
def moveLoopback : List (GrowAct grown.servers.length) :=
  [.read ⟨0, by decide⟩ [bootstrapped loopbackPeer], .send ⟨0, by decide⟩ [] true,
    .read ⟨1, by decide⟩ [bootstrapped "https://10.0.0.1:2380".toList]]

/-- Then it adds itself. -/
def addLearner : GrowAct grown.servers.length :=
  .send ⟨1, by decide⟩ "91bc3c398fb3c146".toList true

theorem growth_safe_legacy :
    ∃ s s', exec (Cluster.step grown) legacyCluster moveLoopback = some s ∧
      s.step grown addLearner = some s' ∧ SafeStep grown s s' := by
  have hinit : Initial legacyCluster := by
    refine ⟨?_, by decide, by decide, fun _ => rfl⟩
    intro m hm
    obtain rfl := List.mem_singleton.mp hm
    exact ⟨by decide, by decide, by decide, by decide, by decide, by decide⟩
  have hsome : (exec (Cluster.step grown) legacyCluster (moveLoopback ++ [addLearner])).isSome = true := by
    decide +kernel
  obtain ⟨s', h⟩ := Option.isSome_iff_exists.mp hsome
  rw [exec_append] at h
  obtain ⟨s, hrun, hlast⟩ := Option.bind_eq_some_iff.mp h
  obtain ⟨t, hstep, -⟩ := exec_cons_iff.mp hlast
  exact ⟨s, t, hrun, hstep, (growth_safe grown hinit hrun hstep).1⟩

end Kubenyx.Quorum
