import Kubenyx.Common.OrdMap
import Kubenyx.Microvm.Subnet
import Kubenyx.Net.PodSubnet

/-!
# Members of a mesh

Model of `mkMembers`, `bootOrderFor` and of the manifest that the launcher of a mesh with
several servers writes into its run directory (lib/microvm.nix:112-156,
lib/microvm.nix:356-392). An attribute set is a map with its names in ascending order, and
`builtins.toJSON` prints it in that order.

* `mkMembers_perm`: the members are the servers and the agents of the declaration, each once.
* `manifestNodes_perm`: the manifest lists every member with its address.
-/

namespace Kubenyx.Microvm

open Kubenyx.Common
open Kubenyx.Net (Role)

/-- The value of a member (lib/microvm.nix:135-147). -/
structure Member where
  index : ℕ
  address : Text
  role : Role
  deriving DecidableEq

/-- `serverFor` (lib/microvm.nix:132-138). -/
def serverFor (servers : ℕ) (netPrefix : Text) (i : ℕ) : Text × Member :=
  (if servers = 1 then "server".toList else "server".toList ++ decimal i,
    { index := i - 1
      address := netPrefix ++ '.' :: decimal (1 + i)
      role := .server })

/-- `agentFor` (lib/microvm.nix:139-145). -/
def agentFor (servers : ℕ) (netPrefix : Text) (i : ℕ) : Text × Member :=
  ("agent".toList ++ decimal i,
    { index := servers + i - 1
      address := netPrefix ++ '.' :: decimal (1 + servers + i)
      role := .agent })

/-- The list that `mkMembers` makes an attribute set of (lib/microvm.nix:147). -/
def memberList (servers agents : ℕ) (netPrefix : Text) : List (Text × Member) :=
  (List.range' 1 servers).map (serverFor servers netPrefix) ++
    (List.range' 1 agents).map (agentFor servers netPrefix)

/-- `mkMembers` (lib/microvm.nix:112-147); `none` if an assertion fails. -/
def mkMembers (H : HashString) (servers agents : ℕ) (subnet : Text) :
    Option (OrdMap Text Member) :=
  if 1 ≤ servers ∧ 2 + servers + agents ≤ 254 then
    (subnetFor H subnet).map fun sn => OrdMap.ofList (memberList servers agents sn.netPrefix)
  else none

/-- `bootOrderFor` (lib/microvm.nix:152-156). -/
def bootOrderFor (members : OrdMap Text Member) : List Text :=
  (members.entries.filter (·.2.role = .server)).map Prod.fst ++
    (members.entries.filter (·.2.role = .agent)).map Prod.fst

/-! ## The manifest -/

/-- The escape of a character in a JSON string. -/
def jsonEscape (c : Char) : Text :=
  if c = '"' then ['\\', '"']
  else if c = '\\' then ['\\', '\\']
  else if c = '\n' then ['\\', 'n']
  else if c = '\r' then ['\\', 'r']
  else if c = '\t' then ['\\', 't']
  else if c.toNat = 8 then ['\\', 'b']
  else if c.toNat = 12 then ['\\', 'f']
  else if c.toNat < 32 then
    ['\\', 'u', '0', '0', Nat.digitChar (c.toNat / 16), Nat.digitChar (c.toNat % 16)]
  else [c]

/-- `builtins.toJSON` of a string. -/
def jsonString (t : Text) : Text := '"' :: t.flatMap jsonEscape ++ ['"']

/-- A node of the manifest (lib/microvm.nix:382-386). -/
structure ManifestNode where
  name : Text
  ip : Text
  role : Role
  deriving DecidableEq

/-- The nodes of the manifest (lib/microvm.nix:382-386). -/
def manifestNodes (members : OrdMap Text Member) : List ManifestNode :=
  (bootOrderFor members).filterMap fun n =>
    (members.get? n).map fun m => ⟨n, m.address, m.role⟩

/-- What `builtins.toJSON` prints of a node, after the opening brace. -/
def ManifestNode.json (n : ManifestNode) : Text :=
  "\"ip\":".toList ++ jsonString n.ip ++ ",\"name\":".toList ++ jsonString n.name ++
    ",\"role\":".toList ++ jsonString n.role.text ++ ['\x7d']

/-- `meshManifest` (lib/microvm.nix:371-387); `durable` tells for each node whether its profile
    is balanced and its datastore not volatile. -/
def meshManifest (durable : Text → Bool) (members : OrdMap Text Member) : Text :=
  let posture := if (bootOrderFor members).any durable then "durable" else "volatile"
  "\x7b\"nodes\":[".toList ++
    joined ',' ((manifestNodes members).map fun n => '\x7b' :: n.json) ++
    "],\"posture\":".toList ++ jsonString posture.toList ++ ['\x7d']

/-- `kubenyx-mesh.json` in the run directory (lib/microvm.nix:388-394): the launcher of a single
    server writes none. -/
def meshManifestWrite (durable : Text → Bool) (servers : ℕ) (members : OrdMap Text Member) :
    Option Text :=
  if 1 < servers then some (meshManifest durable members ++ ['\n']) else none

/-! ## The members -/

theorem nodup_memberList (servers agents : ℕ) (netPrefix : Text) :
    ((memberList servers agents netPrefix).map Prod.fst).Nodup := by
  have hservers : ((List.range' 1 servers).map fun i => (serverFor servers netPrefix i).1).Nodup := by
    by_cases hone : servers = 1
    · subst hone
      simp
    · refine List.Nodup.map ?_ List.nodup_range'
      intro i j hij
      simp only [serverFor, if_neg hone] at hij
      exact decimal_injective (List.append_cancel_left hij)
  have hagents : ((List.range' 1 agents).map fun i => (agentFor servers netPrefix i).1).Nodup := by
    refine List.Nodup.map ?_ List.nodup_range'
    intro i j hij
    exact decimal_injective (List.append_cancel_left hij)
  unfold memberList
  rw [List.map_append, List.map_map, List.map_map, List.nodup_append]
  refine ⟨hservers, hagents, ?_⟩
  intro a ha b hb hab
  obtain ⟨i, -, rfl⟩ := List.mem_map.mp ha
  obtain ⟨j, -, rfl⟩ := List.mem_map.mp hb
  simp only [Function.comp_apply, serverFor, agentFor] at hab
  split_ifs at hab <;> simp at hab

/-- The members are the servers and the agents of the declaration, each once. -/
theorem mkMembers_perm {H : HashString} {servers agents : ℕ} {subnet : Text}
    {members : OrdMap Text Member} (h : mkMembers H servers agents subnet = some members) :
    1 ≤ servers ∧ 2 + servers + agents ≤ 254 ∧ ∃ sn, subnetFor H subnet = some sn ∧
      members.entries.Perm (memberList servers agents sn.netPrefix) := by
  unfold mkMembers at h
  split_ifs at h with hbound
  obtain ⟨sn, hsn, rfl⟩ := Option.map_eq_some_iff.mp h
  exact ⟨hbound.1, hbound.2, sn, hsn, OrdMap.ofList_perm (nodup_memberList ..)⟩

/-- Looking up the names of entries gives the entries back. -/
theorem filterMap_get? {members : OrdMap Text Member} {es : List (Text × Member)}
    (h : ∀ e ∈ es, e ∈ members.entries) :
    (es.map Prod.fst).filterMap (fun n =>
        (members.get? n).map fun m => (⟨n, m.address, m.role⟩ : ManifestNode)) =
      es.map fun e => ⟨e.1, e.2.address, e.2.role⟩ := by
  induction es with
  | nil => rfl
  | cons e es ih =>
    obtain ⟨he, hes⟩ := List.forall_mem_cons.mp h
    have hget : members.get? e.1 = some e.2 := OrdMap.mem_entries_iff.mp he
    rw [List.map_cons, List.filterMap_cons, hget, Option.map_some, ih hes, List.map_cons]

/-- The manifest lists every member with its address. -/
theorem manifestNodes_perm (members : OrdMap Text Member) :
    (manifestNodes members).Perm
      (members.entries.map fun e => ⟨e.1, e.2.address, e.2.role⟩) := by
  have hagent : members.entries.filter (·.2.role = .agent) =
      members.entries.filter (fun e => !decide (e.2.role = .server)) := by
    refine List.filter_congr fun e _ => ?_
    cases e.2.role <;> rfl
  have hperm := (List.filter_append_perm (fun e : Text × Member => e.2.role = .server)
    members.entries).map fun e => (⟨e.1, e.2.address, e.2.role⟩ : ManifestNode)
  unfold manifestNodes bootOrderFor
  rw [List.filterMap_append, filterMap_get? (fun e he => List.mem_of_mem_filter he),
    filterMap_get? (fun e he => List.mem_of_mem_filter he), hagent, ← List.map_append]
  exact hperm

/-! ## Texts without a special character -/

/-- A letter, a digit or a dot. -/
def isPlain (c : Char) : Bool := c.isAlphanum || c = '.'

/-- Nothing in the text is special in JSON. -/
def Plain (t : Text) : Prop := ∀ c ∈ t, isPlain c = true

theorem Plain.append {s t : Text} (hs : Plain s) (ht : Plain t) : Plain (s ++ t) := fun c hc =>
  (List.mem_append.mp hc).elim (hs c) (ht c)

theorem Plain.not_mem {t : Text} (h : Plain t) {c : Char} (hc : isPlain c = false) : c ∉ t := by
  intro hmem
  rw [h c hmem] at hc
  exact absurd hc (by decide)

theorem plain_decimal (n : ℕ) : Plain (decimal n) := by
  intro c hc
  simp [isPlain, Char.isAlphanum, isDigit_of_mem_decimal hc]

theorem toNat_of_isPlain {c : Char} (h : isPlain c = true) : 46 ≤ c.toNat ∧ c.toNat < 127 := by
  unfold isPlain at h
  rw [Bool.or_eq_true, decide_eq_true_eq] at h
  rcases h with h | rfl
  · have hrange := toNat_of_isAlphanum h
    omega
  · decide

/-! ## JSON strings -/

/-- Nothing in the text is escaped. -/
def Unescaped (t : Text) : Prop := ∀ c ∈ t, jsonEscape c = [c]

theorem jsonEscape_eq_self {c : Char} (hspace : 32 ≤ c.toNat) (hquote : c ≠ '"') (hslash : c ≠ '\\') :
    jsonEscape c = [c] := by
  have hne : ∀ d : Char, d.toNat < 32 → c ≠ d := fun d hd hcd => by
    rw [hcd] at hspace
    omega
  unfold jsonEscape
  rw [if_neg hquote, if_neg hslash, if_neg (hne '\n' (by decide)), if_neg (hne '\r' (by decide)),
    if_neg (hne '\t' (by decide)), if_neg (by omega), if_neg (by omega), if_neg (by omega)]

theorem Unescaped.jsonString_eq {t : Text} (h : Unescaped t) : jsonString t = '"' :: t ++ ['"'] := by
  have hescape : t.flatMap jsonEscape = t := by
    conv_rhs => rw [← List.flatMap_singleton' t]
    exact List.flatMap_congr h
  unfold jsonString
  rw [hescape]

theorem Unescaped.quote_notMem {t : Text} (h : Unescaped t) : '"' ∉ t := fun hmem =>
  absurd (h '"' hmem) (by decide)

theorem jsonEscape_plain {c : Char} (h : isPlain c = true) : jsonEscape c = [c] := by
  have hbound := (toNat_of_isPlain h).1
  refine jsonEscape_eq_self (by omega) ?_ ?_
  · rintro rfl
    exact absurd h (by decide)
  · rintro rfl
    exact absurd h (by decide)

theorem jsonString_plain {t : Text} (h : Plain t) : jsonString t = '"' :: t ++ ['"'] :=
  Unescaped.jsonString_eq fun c hc => jsonEscape_plain (h c hc)

/-! ## The nodes of the manifest -/

/-- What a node of the manifest is made of. -/
structure ManifestNode.IsPlain (n : ManifestNode) : Prop where
  ip : Plain n.ip
  ip_head : ∃ c ∈ n.ip.head?, c.isDigit = true
  name : Plain n.name
  name_head : n.name.head? = some 's' ∨ n.name.head? = some 'a'

theorem plain_role (r : Role) : Plain r.text := by
  cases r with
  | server =>
    show ∀ c ∈ ['s', 'e', 'r', 'v', 'e', 'r'], isPlain c = true
    simp only [List.forall_mem_cons]
    exact ⟨rfl, rfl, rfl, rfl, rfl, rfl, by simp⟩
  | agent =>
    show ∀ c ∈ ['a', 'g', 'e', 'n', 't'], isPlain c = true
    simp only [List.forall_mem_cons]
    exact ⟨rfl, rfl, rfl, rfl, rfl, by simp⟩

/-- The address of a member is in digits and dots. -/
theorem octets_spec {subnet netPrefix : Text} (h : octets subnet = some netPrefix) :
    subnet = netPrefix ++ ".0/24".toList ∧ Plain netPrefix ∧
      ∃ c ∈ netPrefix.head?, c.isDigit = true := by
  unfold octets at h
  split_ifs at h with hsuffix
  obtain ⟨rest, hrest⟩ := hsuffix
  have hgroup : subnet.take (subnet.length - 5) = rest := by
    rw [← hrest, List.length_append]
    exact List.take_left' (by rfl)
  dsimp only at h
  rw [hgroup] at h
  split at h
  case h_1 a b c hsplit =>
    split_ifs at h with hnum
    obtain rfl := Option.some.inj h
    simp only [Bool.and_eq_true] at hnum
    have hjoin : joined '.' [a, b, c] = rest := by
      rw [← hsplit]
      exact List.intercalate_splitOn '.'
    have hdigit : ∀ t ∈ [a, b, c], t.all Char.isDigit = true := by
      simp only [isNumber, Bool.and_eq_true] at hnum
      simp only [List.forall_mem_cons]
      exact ⟨hnum.1.1.2, hnum.1.2.2, hnum.2.2, by simp⟩
    refine ⟨hrest.symm, ?_, ?_⟩
    · intro x hx
      rw [← hjoin] at hx
      unfold isPlain
      rcases mem_joined hx with rfl | ⟨t, ht, hx⟩
      · rfl
      · simp [Char.isAlphanum, List.all_eq_true.mp (hdigit t ht) x hx]
    · have hne : a ≠ [] := by
        intro hnil
        rw [hnil] at hnum
        exact absurd hnum.1.1 (by decide)
      obtain ⟨x, a', rfl⟩ := List.exists_cons_of_ne_nil hne
      refine ⟨x, ?_, List.all_eq_true.mp (hdigit _ List.mem_cons_self) x List.mem_cons_self⟩
      rw [← hjoin]
      simp [joined_cons_cons]
  case h_2 => exact absurd h (by simp)

theorem isPlain_memberList {servers agents : ℕ} {netPrefix : Text} (hplain : Plain netPrefix)
    (hhead : ∃ c ∈ netPrefix.head?, c.isDigit = true) :
    ∀ e ∈ memberList servers agents netPrefix,
      (⟨e.1, e.2.address, e.2.role⟩ : ManifestNode).IsPlain := by
  have hip : ∀ n, Plain (netPrefix ++ '.' :: decimal n) := fun n =>
    hplain.append (List.forall_mem_cons.mpr ⟨rfl, plain_decimal n⟩)
  have hip_head : ∀ t, ∃ c ∈ (netPrefix ++ t).head?, c.isDigit = true := by
    intro t
    obtain ⟨c, hc, hdigit⟩ := hhead
    exact ⟨c, List.mem_head?_append_of_mem_head? hc, hdigit⟩
  have hserver : Plain "server".toList := plain_role .server
  have hagent : Plain "agent".toList := plain_role .agent
  intro e he
  rcases List.mem_append.mp he with he | he
  · obtain ⟨i, -, rfl⟩ := List.mem_map.mp he
    refine ⟨hip _, hip_head _, ?_, Or.inl ?_⟩ <;> simp only [serverFor] <;> split_ifs
    · exact hserver
    · exact hserver.append (plain_decimal i)
    · rfl
    · rfl
  · obtain ⟨i, -, rfl⟩ := List.mem_map.mp he
    exact ⟨hip _, hip_head _, hagent.append (plain_decimal i), Or.inr rfl⟩

theorem isPlain_manifestNodes {H : HashString} {servers agents : ℕ} {subnet : Text}
    {members : OrdMap Text Member} (h : mkMembers H servers agents subnet = some members) :
    ∀ n ∈ manifestNodes members, n.IsPlain := by
  obtain ⟨-, -, sn, hsn, hperm⟩ := mkMembers_perm h
  obtain ⟨-, hplain, hhead⟩ := octets_spec (octets_of_subnetFor hsn)
  intro n hn
  obtain ⟨e, he, rfl⟩ := List.mem_map.mp ((manifestNodes_perm members).subset hn)
  exact isPlain_memberList hplain hhead e (hperm.subset he)

theorem manifestNodes_ne_nil {H : HashString} {servers agents : ℕ} {subnet : Text}
    {members : OrdMap Text Member} (h : mkMembers H servers agents subnet = some members) :
    manifestNodes members ≠ [] := by
  obtain ⟨hone, -, sn, -, hperm⟩ := mkMembers_perm h
  intro hnil
  have hlength := (manifestNodes_perm members).length_eq
  rw [hnil, List.length_map, hperm.length_eq] at hlength
  simp [memberList] at hlength
  omega

end Kubenyx.Microvm
