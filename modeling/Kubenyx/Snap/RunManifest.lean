import Kubenyx.Common.RustStr
import Kubenyx.Microvm.Members

/-!
# The manifest of the launcher

Model of `parse_run_manifest` (lib.rs:1480-1512), which reads the nodes and the posture of a
mesh from the file that the launcher wrote with `builtins.toJSON` (lib/microvm.nix:371-387).
It is no JSON parser: a field is found by a search for its key and the colon and the quote
after it, and the objects are the parts between the braces that open them.

* `findAfter_quoted`: a search for a key passes over quoted texts that are not that key.
* `parseRunManifest_manifestJson`: what the launcher declares is read back, also where names,
  addresses and roles look like keys or separators.
-/

namespace Kubenyx.Snap

open Kubenyx.Common
open Kubenyx.Microvm (jsonString Unescaped jsonEscape_eq_self)

/-! ## The scanner -/

/-- `MeshNode` (lib.rs:1402-1406). -/
structure MeshNode where
  name : Text
  ip : Text
  deriving DecidableEq

/-- `RunManifest` (lib.rs:1480-1483). -/
structure RunManifest where
  posture : Text
  nodes : List MeshNode
  deriving DecidableEq

/-- `json_str_field` (lib.rs:1488-1493). -/
def jsonStrField (obj key : Text) : Option Text := do
  let rest ← findAfter ('"' :: key ++ "\":\"".toList) obj
  if '"' ∈ rest then some (rest.takeWhile (· ≠ '"')) else none

/-- `ok_or`. -/
def okOr {α : Type} (o : Option α) (e : String) : Except Text α :=
  match o with
  | some a => .ok a
  | none => .error e.toList

/-- The loop body of `parse_run_manifest` (lib.rs:1504-1507). -/
def parseManifestNode (obj : Text) : Except Text MeshNode := do
  let name ← okOr (jsonStrField obj "name".toList) "node without name"
  let ip ← okOr (jsonStrField obj "ip".toList) "node without ip"
  return ⟨name, ip⟩

/-- `parse_run_manifest` (lib.rs:1495-1512). -/
def parseRunManifest (json : Text) : Except Text RunManifest := do
  let posture ← okOr (jsonStrField json "posture".toList) "no posture field"
  let arr ← okOr (findAfter "\"nodes\":[".toList json) "no nodes field"
  let body ← okOr (if ']' ∈ arr then some (arr.takeWhile (· ≠ ']')) else none)
    "unterminated nodes array"
  let nodes ← ((body.splitOn '\x7b').filter fun s => trim s ≠ []).mapM parseManifestNode
  if nodes = [] then .error "empty nodes array".toList else .ok ⟨posture, nodes⟩

/-! ## What the launcher prints -/

/-- A node of the declaration. -/
structure ManifestEntry where
  name : Text
  ip : Text
  role : Text
  deriving DecidableEq

/-- What `builtins.toJSON` prints of it, the keys in their order. -/
def ManifestEntry.json (e : ManifestEntry) : Text :=
  "\x7b\"ip\":".toList ++ jsonString e.ip ++ ",\"name\":".toList ++ jsonString e.name ++
    ",\"role\":".toList ++ jsonString e.role ++ "\x7d".toList

/-- What `builtins.toJSON` prints of `{ nodes = entries; posture = posture; }`. -/
def manifestJson (entries : List ManifestEntry) (posture : Text) : Text :=
  "\x7b\"nodes\":[".toList ++ joined ',' (entries.map ManifestEntry.json) ++
    "],\"posture\":".toList ++ jsonString posture ++ "\x7d".toList

/-- Printable ASCII without quotes, backslashes, opening braces and closing brackets. -/
def Printable (t : Text) : Prop :=
  ∀ c ∈ t, 32 ≤ c.toNat ∧ c.toNat < 127 ∧ c ∉ ['"', '\\', '\x7b', ']']

instance decidablePrintable (t : Text) : Decidable (Printable t) :=
  decidable_of_iff ((t.all fun c =>
      decide (32 ≤ c.toNat ∧ c.toNat < 127 ∧ c ∉ ['"', '\\', '\x7b', ']'])) = true)
    (by simp only [Printable, List.all_eq_true, decide_eq_true_eq])

/-- All texts of the entry are printable. -/
structure ManifestEntry.Printable (e : ManifestEntry) : Prop where
  name : Snap.Printable e.name
  ip : Snap.Printable e.ip
  role : Snap.Printable e.role

theorem Printable.unescaped {t : Text} (h : Printable t) : Unescaped t := by
  intro c hc
  obtain ⟨hspace, -, hnot⟩ := h c hc
  simp only [List.mem_cons, not_or] at hnot
  exact jsonEscape_eq_self hspace hnot.1 hnot.2.1

theorem Printable.notMem {t : Text} (h : Printable t) {c : Char} (hc : c ∈ ['"', '\\', '\x7b', ']']) :
    c ∉ t := fun hmem => (h c hmem).2.2 hc

/-! ## Searching for a key -/

section search

variable {x c : Char} {key k v t u : Text}

/-- A quoted text is passed over, unless it is the key and a value in quotes follows. -/
theorem findAfter_quoted (hkey : '"' ∉ key) (hv : '"' ∉ v) (h : key = v → ¬ ":\"".toList <+: t) :
    findAfter ('"' :: key ++ "\":\"".toList) ('"' :: (v ++ '"' :: t)) =
      findAfter ('"' :: key ++ "\":\"".toList) ('"' :: t) := by
  have hno : ¬ '"' :: key ++ "\":\"".toList <+: '"' :: (v ++ '"' :: t) := by
    rintro ⟨r, hr⟩
    have htail : key ++ '"' :: (":\"".toList ++ r) = v ++ '"' :: t := by
      simpa using hr
    obtain ⟨rfl, rfl⟩ := append_cons_inj hkey hv htail
    exact h rfl (List.prefix_append _ _)
  have hskip : findAfter ('"' :: key ++ "\":\"".toList) ('"' :: (v ++ '"' :: t)) =
      findAfter ('"' :: key ++ "\":\"".toList) (v ++ '"' :: t) := by
    rw [findAfter, if_neg hno]
  exact hskip.trans (findAfter_append hv)

/-- A field with another key is passed over. -/
theorem findAfter_field (hkey : '"' ∉ x :: key) (hk : '"' ∉ k) (hv : '"' ∉ v) (hne : x :: key ≠ k)
    (hcolon : x ≠ ':') (hc : c ≠ ':') (hxc : x ≠ c) :
    findAfter ('"' :: (x :: key) ++ "\":\"".toList)
        ('"' :: (k ++ '"' :: ':' :: '"' :: (v ++ '"' :: c :: t))) =
      findAfter ('"' :: (x :: key) ++ "\":\"".toList) (c :: t) := by
  have hend : ¬ ":\"".toList <+: c :: t := fun h => hc (List.cons_prefix_cons.mp h).1.symm
  rw [findAfter_quoted hkey hk fun h => absurd h hne]
  refine (findAfter_cons_cons_of_ne hcolon).trans ?_
  refine (findAfter_cons_of_ne (by decide)).trans ?_
  refine (findAfter_quoted hkey hv fun _ => hend).trans ?_
  exact findAfter_cons_cons_of_ne hxc

/-- The value of the key that comes first. -/
theorem jsonStrField_eq (hv : '"' ∉ v)
    (hfind : findAfter ('"' :: key ++ "\":\"".toList) t = some (v ++ '"' :: u)) :
    jsonStrField t key = some v := by
  have hne : ∀ d ∈ v, decide (d ≠ '"') = true := fun d hd => decide_eq_true fun h => hv (h ▸ hd)
  unfold jsonStrField
  rw [hfind]
  show (if '"' ∈ v ++ '"' :: u then some _ else none) = _
  rw [if_pos (List.mem_append_right _ List.mem_cons_self), List.takeWhile_append_of_pos hne,
    List.takeWhile_cons_of_neg (by decide), List.append_nil]

end search

/-! ## A node -/

section entry

variable {e : ManifestEntry} (h : e.Printable)
include h

theorem ManifestEntry.Printable.json_eq (t : Text) :
    e.json ++ t = '\x7b' :: ("\"ip\":\"".toList ++ (e.ip ++ '"' :: (",\"name\":\"".toList ++ (e.name ++
      '"' :: (",\"role\":\"".toList ++ (e.role ++ '"' :: '\x7d' :: t)))))) := by
  unfold ManifestEntry.json
  rw [h.ip.unescaped.jsonString_eq, h.name.unescaped.jsonString_eq, h.role.unescaped.jsonString_eq]
  simp

/-- The object after its brace, up to a comma or the end of the array. -/
theorem parseManifestNode_json {o : Text} (ho : e.json = '\x7b' :: o) (u : Text) :
    parseManifestNode (o ++ u) = .ok ⟨e.name, e.ip⟩ := by
  have htext := h.json_eq u
  rw [ho, List.cons_append] at htext
  replace htext := (List.cons.inj htext).2
  have hip := h.ip.unescaped.quote_notMem
  have hname : jsonStrField (o ++ u) "name".toList = some e.name := by
    refine jsonStrField_eq (u := ",\"role\":\"".toList ++ (e.role ++ '"' :: '\x7d' :: u))
      h.name.unescaped.quote_notMem ?_
    rw [htext]
    refine (findAfter_field (k := "ip".toList) (by decide) (by decide) hip (by decide) (by decide)
      (by decide) (by decide)).trans ?_
    refine (findAfter_cons_of_ne (by decide)).trans ?_
    exact findAfter_append_self (by simp)
  have hip : jsonStrField (o ++ u) "ip".toList = some e.ip := by
    refine jsonStrField_eq (u := ",\"name\":\"".toList ++ (e.name ++
      '"' :: (",\"role\":\"".toList ++ (e.role ++ '"' :: '\x7d' :: u)))) hip ?_
    rw [htext]
    exact findAfter_append_self (by simp)
  unfold parseManifestNode
  rw [hname, hip]
  rfl

/-- The posture is not found in a node. -/
theorem findAfter_posture_json (t : Text) :
    findAfter ('"' :: "posture".toList ++ "\":\"".toList) (e.json ++ t) =
      findAfter ('"' :: "posture".toList ++ "\":\"".toList) t := by
  rw [h.json_eq]
  refine (findAfter_cons_of_ne (by decide)).trans ?_
  refine (findAfter_field (k := "ip".toList) (by decide) (by decide) h.ip.unescaped.quote_notMem
    (by decide) (by decide) (by decide) (by decide)).trans ?_
  refine (findAfter_cons_of_ne (by decide)).trans ?_
  refine (findAfter_field (k := "name".toList) (by decide) (by decide) h.name.unescaped.quote_notMem
    (by decide) (by decide) (by decide) (by decide)).trans ?_
  refine (findAfter_cons_of_ne (by decide)).trans ?_
  refine (findAfter_field (k := "role".toList) (by decide) (by decide) h.role.unescaped.quote_notMem
    (by decide) (by decide) (by decide) (by decide)).trans ?_
  exact findAfter_cons_of_ne (by decide)

end entry

/-- The scanner cuts objects at none of their characters but the first, and the array not in
    them. -/
theorem notMem_json {e : ManifestEntry} (h : e.Printable) {o : Text} (ho : e.json = '\x7b' :: o)
    {c : Char} (hcut : c ∈ ['"', '\\', '\x7b', ']'])
    (hparts : c ∉ "\"ip\":\",\"name\":\",\"role\":\"\x7d".toList) : c ∉ o := by
  have htext := h.json_eq []
  rw [ho, List.append_nil] at htext
  rw [(List.cons.inj htext).2]
  have hconst : ∀ s : Text, s ⊆ "\"ip\":\",\"name\":\",\"role\":\"\x7d".toList → c ∉ s :=
    fun s hs hmem => hparts (hs hmem)
  have hquote : c ≠ '"' := fun h => hconst ['"'] (by decide) (List.mem_singleton.mpr h)
  simp only [List.mem_append, List.mem_cons, not_or]
  refine ⟨hconst _ (by decide), h.ip.notMem hcut, hquote, hconst _ (by decide), h.name.notMem hcut,
    hquote, hconst _ (by decide), h.role.notMem hcut, hquote, ?_, List.not_mem_nil⟩
  exact fun h => hconst ['\x7d'] (by decide) (List.mem_singleton.mpr h)

/-! ## The array -/

section array

variable {es : List ManifestEntry}

theorem joined_json_cons (e : ManifestEntry) (hne : es ≠ []) :
    joined ',' ((e :: es).map ManifestEntry.json) =
      e.json ++ ',' :: joined ',' (es.map ManifestEntry.json) := by
  obtain ⟨m, ms, rfl⟩ := List.exists_cons_of_ne_nil hne
  exact joined_cons_cons ..

theorem joined_json_singleton (e : ManifestEntry) :
    joined ',' ([e].map ManifestEntry.json) = e.json := by
  simp [joined]

theorem findAfter_posture_array (h : ∀ e ∈ es, e.Printable) (t : Text) :
    findAfter ('"' :: "posture".toList ++ "\":\"".toList)
        (joined ',' (es.map ManifestEntry.json) ++ t) =
      findAfter ('"' :: "posture".toList ++ "\":\"".toList) t := by
  induction es with
  | nil => rfl
  | cons e es ih =>
    obtain ⟨he, hes⟩ := List.forall_mem_cons.mp h
    by_cases hne : es = []
    · rw [hne, joined_json_singleton, findAfter_posture_json he]
    · rw [joined_json_cons e hne, List.append_assoc, findAfter_posture_json he]
      exact (findAfter_cons_of_ne (by decide)).trans (ih hes)

theorem json_head (e : ManifestEntry) : ∃ o, e.json = '\x7b' :: '"' :: o := ⟨_, rfl⟩

theorem bracket_notMem_array (h : ∀ e ∈ es, e.Printable) :
    ']' ∉ joined ',' (es.map ManifestEntry.json) := by
  intro hmem
  obtain hsep | ⟨t, ht, hmem⟩ := mem_joined hmem
  · exact absurd hsep (by decide)
  · obtain ⟨e, he, rfl⟩ := List.mem_map.mp ht
    obtain ⟨o, ho⟩ := json_head e
    rw [ho, List.mem_cons] at hmem
    exact hmem.elim (by decide) (notMem_json (h e he) ho (by decide) (by decide))

theorem trim_quote_ne_nil (t : Text) : trim ('"' :: t) ≠ [] := by
  unfold trim trimEnd
  rw [List.dropWhile_cons_of_neg (by decide), ne_eq, List.rdropWhile_eq_nil_iff]
  intro hall
  exact absurd (hall '"' List.mem_cons_self) (by decide)

/-- The pieces between the braces are the nodes, all but the last with a comma after them. -/
theorem parse_pieces (h : ∀ e ∈ es, e.Printable) (hne : es ≠ []) :
    ∃ r, joined ',' (es.map ManifestEntry.json) = '\x7b' :: r ∧
      ((r.splitOn '\x7b').filter fun s => trim s ≠ []).mapM parseManifestNode =
        .ok (es.map fun e => ⟨e.name, e.ip⟩) := by
  induction es with
  | nil => exact absurd rfl hne
  | cons e es ih =>
    obtain ⟨he, hes⟩ := List.forall_mem_cons.mp h
    obtain ⟨o, ho⟩ := json_head e
    have hbrace : '\x7b' ∉ '"' :: o := notMem_json he ho (by decide) (by decide)
    by_cases hnil : es = []
    · subst hnil
      refine ⟨'"' :: o, (joined_json_singleton e).trans ho, ?_⟩
      have hpiece := parseManifestNode_json he ho []
      rw [List.append_nil] at hpiece
      rw [List.splitOn_eq_singleton hbrace,
        List.filter_cons_of_pos (by simpa using trim_quote_ne_nil o), List.filter_nil, List.mapM_cons,
        hpiece]
      rfl
    · obtain ⟨r, hr, hparse⟩ := ih hes hnil
      have hcut : '"' :: o ++ ',' :: joined ',' (es.map ManifestEntry.json) =
          ('"' :: o ++ [',']) ++ '\x7b' :: r := by
        rw [hr, List.append_assoc]
        rfl
      have hbrace' : '\x7b' ∉ '"' :: o ++ [','] := by
        rw [List.mem_append, not_or]
        exact ⟨hbrace, by decide⟩
      refine ⟨'"' :: o ++ ',' :: joined ',' (es.map ManifestEntry.json), ?_, ?_⟩
      · rw [joined_json_cons e hnil, ho]
        rfl
      · rw [hcut, List.splitOn_append_cons_self_of_not_mem hbrace',
          List.filter_cons_of_pos (by simpa using trim_quote_ne_nil (o ++ [','])), List.mapM_cons,
          parseManifestNode_json he ho, hparse]
        rfl

end array

/-! ## The manifest -/

section manifest

variable {es : List ManifestEntry} {posture : Text}

theorem manifestJson_eq (hposture : Unescaped posture) (u : Text) :
    manifestJson es posture ++ u = '\x7b' :: ("\"nodes\":[".toList ++
      (joined ',' (es.map ManifestEntry.json) ++ ']' :: ',' ::
        ('"' :: "posture".toList ++ "\":\"".toList ++ (posture ++ '"' :: '\x7d' :: u)))) := by
  unfold manifestJson
  rw [hposture.jsonString_eq]
  simp

theorem jsonStrField_posture (h : ∀ e ∈ es, e.Printable) (hposture : Unescaped posture) (u : Text) :
    jsonStrField (manifestJson es posture ++ u) "posture".toList = some posture := by
  refine jsonStrField_eq (u := '\x7d' :: u) hposture.quote_notMem ?_
  rw [manifestJson_eq hposture]
  refine (findAfter_cons_of_ne (by decide)).trans ?_
  have hnodes : findAfter ('"' :: "posture".toList ++ "\":\"".toList) ('"' :: ("nodes".toList ++ '"' ::
      (":[".toList ++ (joined ',' (es.map ManifestEntry.json) ++ ']' :: ',' ::
        ('"' :: "posture".toList ++ "\":\"".toList ++ (posture ++ '"' :: '\x7d' :: u)))))) =
      findAfter ('"' :: "posture".toList ++ "\":\"".toList) ('"' :: (":[".toList ++
        (joined ',' (es.map ManifestEntry.json) ++ ']' :: ',' ::
          ('"' :: "posture".toList ++ "\":\"".toList ++ (posture ++ '"' :: '\x7d' :: u))))) :=
    findAfter_quoted (by decide) (by decide) fun h => absurd h (by decide)
  refine hnodes.trans ?_
  refine (findAfter_cons_cons_of_ne (by decide)).trans ?_
  refine (findAfter_cons_of_ne (by decide)).trans ?_
  refine (findAfter_cons_of_ne (by decide)).trans ?_
  refine (findAfter_posture_array h _).trans ?_
  refine (findAfter_cons_of_ne (by decide)).trans ?_
  refine (findAfter_cons_of_ne (by decide)).trans ?_
  exact findAfter_append_self (by simp)

/-- With any text after it, as the newline in the file. -/
theorem parseRunManifest_append (h : ∀ e ∈ es, e.Printable) (hne : es ≠ [])
    (hposture : Unescaped posture) (u : Text) :
    parseRunManifest (manifestJson es posture ++ u) =
      .ok ⟨posture, es.map fun e => ⟨e.name, e.ip⟩⟩ := by
  obtain ⟨r, hr, hparse⟩ := parse_pieces h hne
  have hfield := jsonStrField_posture h hposture u
  obtain ⟨rest, harr⟩ : ∃ rest, findAfter "\"nodes\":[".toList (manifestJson es posture ++ u) =
      some (joined ',' (es.map ManifestEntry.json) ++ ']' :: rest) := by
    rw [manifestJson_eq hposture]
    exact ⟨_, (findAfter_cons_of_ne (by decide)).trans (findAfter_append_self (by simp))⟩
  have hbracket := bracket_notMem_array h
  generalize joined ',' (es.map ManifestEntry.json) = arr at hr harr hbracket
  have hbody : (if ']' ∈ arr ++ ']' :: rest then some ((arr ++ ']' :: rest).takeWhile (· ≠ ']'))
      else none) = some arr := by
    have hin : ∀ c ∈ arr, decide (c ≠ ']') = true := fun c hc =>
      decide_eq_true fun hcb => hbracket (hcb ▸ hc)
    rw [if_pos (List.mem_append_right _ List.mem_cons_self), List.takeWhile_append_of_pos hin,
      List.takeWhile_cons_of_neg (by decide), List.append_nil]
  have hsplit : (arr.splitOn '\x7b').filter (fun s => trim s ≠ []) =
      (r.splitOn '\x7b').filter fun s => trim s ≠ [] := by
    rw [hr, ← List.nil_append ('\x7b' :: r), List.splitOn_append_cons_self_of_not_mem List.not_mem_nil]
    exact List.filter_cons_of_neg (by decide)
  unfold parseRunManifest
  rw [hfield, harr]
  show Except.bind (okOr (if _ then _ else none) _) _ = _
  rw [hbody]
  show Except.bind (List.mapM parseManifestNode ((arr.splitOn '\x7b').filter _)) _ = _
  rw [hsplit, hparse]
  show (if es.map _ = [] then _ else _) = _
  rw [if_neg (by simpa using hne)]

/-- What the launcher declares is read back: the posture, and the names and addresses of the
    nodes in their order. -/
theorem parseRunManifest_manifestJson (h : ∀ e ∈ es, e.Printable) (hne : es ≠ [])
    (hposture : Unescaped posture) :
    parseRunManifest (manifestJson es posture) = .ok ⟨posture, es.map fun e => ⟨e.name, e.ip⟩⟩ := by
  have := parseRunManifest_append h hne hposture []
  rwa [List.append_nil] at this

end manifest

/-- Names, addresses and roles that look like keys and separators. -/
theorem parseRunManifest_keys :
    parseRunManifest (manifestJson [⟨"posture".toList, ":[".toList, "name".toList⟩,
        ⟨"nodes".toList, ",".toList, "\x7d,".toList⟩] "volatile".toList) =
      .ok ⟨"volatile".toList, [⟨"posture".toList, ":[".toList⟩, ⟨"nodes".toList, ",".toList⟩]⟩ := by
  refine parseRunManifest_manifestJson ?_ (by decide) (Printable.unescaped (by decide))
  simp only [List.forall_mem_cons, List.not_mem_nil, false_implies, implies_true, and_true]
  exact ⟨⟨by decide, by decide, by decide⟩, ⟨by decide, by decide, by decide⟩⟩

end Kubenyx.Snap
