import Kubenyx.Snap.Identity
import Kubenyx.Snap.Mesh

/-!
# The manifest of a mesh snapshot

Model of `write_manifest` and `read_manifest` (lib.rs:1623-1660). The lines of the nodes and
the lines of the identity are in one file, and a line is of the identity if it starts with
`identity` and a blank. So is the line of a node that is named `identity`.

* `lines_writeManifest`: the lines of the file.
* `readManifest_writeManifest`: the nodes that are read back are those of another name.
* `manifest_roundTrip_iff`: nodes and identity are read back exactly when no node has that
  name.
-/

namespace Kubenyx.Snap

open Kubenyx.Common

/-! ## The file -/

/-- The line of a node. -/
def nodeLine (n : MeshNode) : Text := n.name ++ ' ' :: n.ip

/-- The text that `write_manifest` (lib.rs:1623-1633) writes. -/
def writeManifest (nodes : List MeshNode) (identity : SnapIdentity) : Text :=
  nodes.flatMap (fun n => nodeLine n ++ ['\n']) ++ identityLines identity

/-- A line of a node (lib.rs:1641-1649). -/
def parseNodeLine (l : Text) : Except Text MeshNode :=
  match splitOnce ' ' l with
  | some (name, ip) => .ok ⟨name, ip⟩
  | none => .error ("bad manifest line: ".toList ++ l)

/-- The lines that are not skipped (lib.rs:1640). -/
def isNodeLine (l : Text) : Bool := trim l ≠ [] && !decide (IDENTITY_PREFIX <+: l)

/-- `read_manifest` (lib.rs:1635-1660), on what reading the file returns. -/
def readManifest (dir : Text) (file : Except Text Text) : Except Text (List MeshNode) :=
  match file with
  | .error e => .error ("read ".toList ++ dir ++ "/manifest: ".toList ++ e)
  | .ok data =>
    match ((lines data).filter isNodeLine).mapM parseNodeLine with
    | .error e => .error e
    | .ok nodes =>
      if nodes = [] then
        .error (dir ++ "/manifest has no node lines — not a mesh snapshot".toList)
      else .ok nodes

/-! ## Its lines -/

/-- A text that is not empty and has no white space. -/
structure Word (t : Text) : Prop where
  ne_nil : t ≠ []
  clean : ∀ c ∈ t, isWhitespace c = false

/-- The name and the address of the node are words. -/
structure MeshNode.Clean (n : MeshNode) : Prop where
  name : Word n.name
  ip : Word n.ip

instance decidableWord (t : Text) : Decidable (Word t) :=
  decidable_of_iff (t ≠ [] ∧ (t.all fun c => !isWhitespace c) = true)
    ⟨fun h => ⟨h.1, by simpa [List.all_eq_true] using h.2⟩,
      fun h => ⟨h.1, by simpa [List.all_eq_true] using h.2⟩⟩

instance MeshNode.decidableClean (n : MeshNode) : Decidable n.Clean :=
  decidable_of_iff (Word n.name ∧ Word n.ip) ⟨fun h => ⟨h.1, h.2⟩, fun h => ⟨h.1, h.2⟩⟩

theorem Word.notMem {t : Text} (h : Word t) {c : Char} (hc : isWhitespace c = true) : c ∉ t := by
  intro hmem
  rw [h.clean c hmem] at hc
  cases hc

section line

variable {n : MeshNode} (h : n.Clean)
include h

theorem splitOnce_nodeLine : splitOnce ' ' (nodeLine n) = some (n.name, n.ip) :=
  splitOnce_append (h.name.notMem (by decide)) n.ip

theorem newline_notMem_nodeLine : '\n' ∉ nodeLine n := by
  have hname := h.name.notMem (c := '\n') (by decide)
  have hip := h.ip.notMem (c := '\n') (by decide)
  unfold nodeLine
  rw [List.mem_append, List.mem_cons, not_or, not_or]
  exact ⟨hname, by decide, hip⟩

theorem trimmed_nodeLine : Trimmed (nodeLine n) where
  head c hc := by
    rw [nodeLine, List.head?_append_of_ne_nil _ h.name.ne_nil] at hc
    exact h.name.clean c (List.mem_of_mem_head? hc)
  last c hc := by
    rw [nodeLine, ← List.singleton_append, ← List.append_assoc,
      List.getLast?_append_of_ne_nil _ h.ip.ne_nil] at hc
    exact h.ip.clean c (List.mem_of_mem_getLast? hc)

/-- The line of a node is taken for one of the identity exactly when the node has that
    name. -/
theorem identity_start_nodeLine : IDENTITY_PREFIX <+: nodeLine n ↔ n.name = "identity".toList := by
  constructor
  · rintro ⟨t, ht⟩
    have hsplit : IDENTITY_PREFIX ++ t = "identity".toList ++ ' ' :: t := rfl
    rw [hsplit] at ht
    exact (append_cons_inj (h.name.notMem (by decide)) (by decide) ht.symm).1
  · intro hname
    unfold nodeLine
    rw [hname]
    exact ⟨n.ip, rfl⟩

theorem isNodeLine_nodeLine : isNodeLine (nodeLine n) = decide (n.name ≠ "identity".toList) := by
  have hne : nodeLine n ≠ [] := List.append_ne_nil_of_right_ne_nil _ (List.cons_ne_nil _ _)
  unfold isNodeLine
  rw [trim_eq_self (trimmed_nodeLine h)]
  simp only [identity_start_nodeLine h, hne, decide_not, ne_eq, not_false_eq_true, decide_true,
    Bool.true_and]

/-- The line says nothing about the identity, also if it is taken for one of its lines. -/
theorem parseLine_nodeLine (id : SnapIdentity) : parseLine id (nodeLine n) = id := by
  unfold parseLine
  by_cases hname : n.name = "identity".toList
  · have hline : nodeLine n = IDENTITY_PREFIX ++ n.ip := by
      unfold nodeLine
      rw [hname]
      rfl
    have hip : splitOnce ' ' n.ip = none := if_neg (h.ip.notMem (by decide))
    rw [hline, stripPrefix_append]
    simp only [hip]
  · rw [stripPrefix_eq_none fun hstart => hname ((identity_start_nodeLine h).mp hstart)]

end line

/-! ## Reading it back -/

section roundTrip

variable {nodes : List MeshNode} {id : SnapIdentity} (hnodes : ∀ n ∈ nodes, n.Clean)
  (hid : id.Recordable)
include hnodes hid

theorem lines_writeManifest :
    lines (writeManifest nodes id) = nodes.map nodeLine ++ id.fields.map identityLine := by
  have htext : writeManifest nodes id =
      (nodes.map nodeLine ++ id.fields.map identityLine).flatMap (· ++ ['\n']) := by
    unfold writeManifest identityLines
    rw [List.flatMap_append, List.flatMap_map, List.flatMap_map]
  rw [htext]
  refine lines_flatMap_newline (List.forall_mem_append.mpr ⟨fun l hl => ?_, fun l hl => ?_⟩)
  · obtain ⟨n, hn, rfl⟩ := List.mem_map.mp hl
    have hclean := hnodes n hn
    exact ⟨newline_notMem_nodeLine hclean, stripCr_eq_self (trimmed_nodeLine hclean).last⟩
  · obtain ⟨field, hf, rfl⟩ := List.mem_map.mp hl
    exact ⟨newline_not_mem_identityLine (key_clean hf).2 (hid field hf),
      stripCr_identityLine (hid field hf)⟩

/-- The identity is read back, whatever the nodes are named. -/
theorem parseIdentity_writeManifest : parseIdentity (writeManifest nodes id) = id := by
  have hskip : ∀ id, (nodes.map nodeLine).foldl parseLine id = id := by
    intro id
    rw [List.foldl_map]
    induction nodes with
    | nil => rfl
    | cons n nodes ih =>
      obtain ⟨hn, hns⟩ := List.forall_mem_cons.mp hnodes
      rw [List.foldl_cons, parseLine_nodeLine hn, ih hns]
  unfold parseIdentity
  rw [lines_writeManifest hnodes hid, List.foldl_append, hskip]
  have hlines := parseIdentity_identityLines hid
  unfold parseIdentity identityLines at hlines
  rwa [lines_flatMap (fun field hf => (key_clean hf).2) hid] at hlines

/-- The lines of nodes that are found. -/
theorem filter_lines_writeManifest : (lines (writeManifest nodes id)).filter isNodeLine =
    (nodes.filter fun n => n.name ≠ "identity".toList).map nodeLine := by
  have hskip : (id.fields.map identityLine).filter isNodeLine = [] := by
    refine List.filter_eq_nil_iff.mpr fun l hl => ?_
    obtain ⟨field, -, rfl⟩ := List.mem_map.mp hl
    have hstart : IDENTITY_PREFIX <+: identityLine field :=
      ⟨field.1 ++ ' ' :: field.2, (List.append_assoc ..).symm⟩
    simp [isNodeLine, hstart]
  rw [lines_writeManifest hnodes hid, List.filter_append, hskip, List.append_nil, List.filter_map]
  congr 1
  refine List.filter_congr fun n hn => ?_
  exact isNodeLine_nodeLine (hnodes n hn)

/-- The nodes that are read back. -/
theorem readManifest_writeManifest (dir : Text) :
    readManifest dir (.ok (writeManifest nodes id)) =
      if nodes.filter (fun n => n.name ≠ "identity".toList) = [] then
        .error (dir ++ "/manifest has no node lines — not a mesh snapshot".toList)
      else .ok (nodes.filter fun n => n.name ≠ "identity".toList) := by
  have hparse : ∀ ns : List MeshNode, (∀ n ∈ ns, n.Clean) →
      (ns.map nodeLine).mapM parseNodeLine = .ok ns := by
    intro ns hns
    induction ns with
    | nil => rfl
    | cons n ns ih =>
      obtain ⟨hn, hns⟩ := List.forall_mem_cons.mp hns
      have hline : parseNodeLine (nodeLine n) = .ok n := by
        unfold parseNodeLine
        rw [splitOnce_nodeLine hn]
      rw [List.map_cons, List.mapM_cons, hline, ih hns]
      rfl
  unfold readManifest
  simp only [filter_lines_writeManifest hnodes hid,
    hparse _ fun n hn => hnodes n (List.mem_of_mem_filter hn)]

end roundTrip

/-- A manifest is read back as the nodes and the identity that were written exactly when no
    node is named `identity`. -/
theorem manifest_roundTrip_iff (dir : Text) {nodes : List MeshNode} (hne : nodes ≠ [])
    (hnodes : ∀ n ∈ nodes, n.Clean) {id : SnapIdentity} (hid : id.Recordable) :
    (readManifest dir (.ok (writeManifest nodes id)) = .ok nodes ∧
      parseIdentity (writeManifest nodes id) = id) ↔ ∀ n ∈ nodes, n.name ≠ "identity".toList := by
  rw [readManifest_writeManifest hnodes hid, parseIdentity_writeManifest hnodes hid]
  constructor
  · rintro ⟨hread, -⟩ n hn
    split_ifs at hread with hnil
    have hfilter := Except.ok.inj hread
    have := List.filter_eq_self.mp hfilter n hn
    exact of_decide_eq_true this
  · intro hnames
    have hfilter : nodes.filter (fun n => n.name ≠ "identity".toList) = nodes :=
      List.filter_eq_self.mpr fun n hn => decide_eq_true (hnames n hn)
    rw [hfilter, if_neg hne]
    exact ⟨rfl, rfl⟩

/-- An identity without a template. -/
def SnapIdentity.sample : SnapIdentity :=
  ⟨some "/nix/store/node".toList, some "/nix/store/vmm".toList,
    some "GenuineIntel/6/173+avx".toList, none⟩

theorem SnapIdentity.sample_recordable : SnapIdentity.sample.Recordable := by
  unfold SnapIdentity.Recordable
  decide

/-- A server and an agent. -/
theorem manifest_roundTrip_two :
    let nodes : List MeshNode :=
      [⟨"server1".toList, "10.100.0.2".toList⟩, ⟨"agent1".toList, "10.100.0.5".toList⟩]
    readManifest "snap".toList (.ok (writeManifest nodes SnapIdentity.sample)) = .ok nodes ∧
      parseIdentity (writeManifest nodes SnapIdentity.sample) = SnapIdentity.sample :=
  (manifest_roundTrip_iff _ (by decide) (by decide) SnapIdentity.sample_recordable).mpr (by decide)

/-- A node named `identity` beside an agent: only the agent is read back. -/
theorem manifest_loses_node_named_identity :
    let nodes : List MeshNode :=
      [⟨"identity".toList, "10.100.0.2".toList⟩, ⟨"agent1".toList, "10.100.0.3".toList⟩]
    (∀ n ∈ nodes, n.Clean) ∧ SnapIdentity.sample.Recordable ∧
      readManifest "snap".toList (.ok (writeManifest nodes SnapIdentity.sample)) =
        .ok [⟨"agent1".toList, "10.100.0.3".toList⟩] ∧
      readManifest "snap".toList (.ok (writeManifest nodes SnapIdentity.sample)) ≠ .ok nodes := by
  intro nodes
  have hclean : ∀ n ∈ nodes, n.Clean := by decide
  have hread := readManifest_writeManifest hclean SnapIdentity.sample_recordable "snap".toList
  have hagent : readManifest "snap".toList (.ok (writeManifest nodes SnapIdentity.sample)) =
      .ok [⟨"agent1".toList, "10.100.0.3".toList⟩] := hread.trans (by decide)
  refine ⟨hclean, SnapIdentity.sample_recordable, hagent, ?_⟩
  rw [hagent]
  decide

end Kubenyx.Snap
