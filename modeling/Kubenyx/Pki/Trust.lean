import Kubenyx.Common.Utf8
import Kubenyx.Pki.Custody
import Kubenyx.Pki.Reissue
import Kubenyx.Pki.Tar

/-!
# One trust root for a mesh

The launcher of a mesh mints a bundle and serves it (`serve`, lib.rs:959-992). Every
server fetches it before its first run of `kubenyx-pki` (`kubenyx-ca-fetch`,
microvm.nix:636-690), which is in the posture that refuses to mint. The response has no
length, so a transfer that breaks off looks complete to `curl`, and `tar` unpacks what
has come. Runs are killed, and the units are started again. What `tar` unpacks is a parameter.

* `Untar.Lawful`: of the beginning of an archive `tar` unpacks whole files, and at most the
  beginning of one more; and it unpacks a whole archive if it is not killed.
* `Landed`: a custody file on a server is a beginning of the launcher's, and complete
  if a later one has come. The test for `ca.key` in front of the fetch keeps this.
* `trust_shared`: a server that writes anything holds the launcher's trust roots, and every
  leaf of every server verifies on every server that holds them.
-/

namespace Kubenyx.Pki

open Kubenyx.Common

variable {R : Rcgen}

/-! ## Unpacking a stream that breaks off -/

/-- The file content with the given bytes. -/
def Content.ofBytes (b : List UInt8) : Content :=
  if h : utf8 (fromUtf8Lossy b) = b then .text (fromUtf8Lossy b)
  else .binary b fun t ht => h (by rw [← ht, fromUtf8Lossy_utf8])

@[simp] theorem Content.bytes_ofBytes (b : List UInt8) : (ofBytes b).bytes = b := by
  unfold ofBytes
  split
  · assumption
  · rfl

theorem Content.bytes_injective : Function.Injective Content.bytes := by
  rintro (t | ⟨b, hb⟩) (u | ⟨c, hc⟩) h
  · exact congrArg Content.text (utf8_injective h)
  · exact (hc t h).elim
  · exact (hb u h.symm).elim
  · obtain rfl : b = c := h
    rfl

/-- Whole members, and at most the beginning of one more. -/
inductive Truncated : List TarEntry → List TarEntry → Prop
  | nil (es : List TarEntry) : Truncated es []
  | part (e : TarEntry) (es : List TarEntry) {data : List UInt8} (h : data <+: e.data) :
      Truncated (e :: es) [⟨e.name, e.size, data⟩]
  | cons (e : TarEntry) {es ws : List TarEntry} (h : Truncated es ws) : Truncated (e :: es) (e :: ws)

/-- What `tar x` has unpacked of a file when it ends by itself, or is killed at some time. -/
abbrev Untar := List UInt8 → Option ℕ → List TarEntry

/-- What is relied on of `tar`. -/
structure Untar.Lawful (tar : Untar) : Prop where
  truncated : ∀ {p es}, parseTar p = some es → ∀ n stop, Truncated es (tar (p.take n) stop)
  whole : ∀ {p es}, parseTar p = some es → tar p none = es

/-! ## The bundle on its way -/

/-- `serve` (lib.rs:959-980), up to the payload. -/
def serve (dir listen : Text) : Prog (List UInt8) := do
  if dir = [] ∨ listen = [] then die "serve requires --dir and --listen".toList
  let missing ← missingFiles CUSTODY_FILES
  if missing ≠ [] then
    die ("serve: ".toList ++ dir ++ " is missing: ".toList ++ List.intercalate [' '] missing ++
      " — run `kubenyx-pki mint-ca --out` first".toList)
  tarBundle

/-- The file that `tar` makes of a member. -/
def TarEntry.unpacked (e : TarEntry) : File × Content :=
  (inPki (fromUtf8Lossy e.name), Content.ofBytes e.data)

/-- A run of `kubenyx-ca-fetch` (microvm.nix:655-686) in which `n` bytes of the stream have
    come, and that ends, or is killed at `stop`. -/
def caFetch (tar : Untar) (stream : List UInt8) (n : ℕ) (stop : Option ℕ) (d : Disk) : Disk :=
  if isNonEmpty (d (inPki "ca.key".toList)) then d
  else d.apply ((tar (stream.take n) stop).map TarEntry.unpacked)

/-- What happens on a server. -/
inductive Boot (R : Rcgen) where
  | fetch (n : ℕ) (stop : Option ℕ)
  /-- A run of `kubenyx-pki` that is killed after `stop` writes, or ends before. -/
  | run (cfg : Cfg) (x : ServerInput R) (stop : ℕ)

/-- A step of a server of the mesh: `kubenyx-pki` has the option `--require-shipped-ca`
    (pki.nix:103). -/
def Boot.step (tar : Untar) (stream : List UInt8) (d : Disk) : Boot R → Option Disk
  | .fetch n stop => some (caFetch tar stream n stop d)
  | .run cfg x stop => if cfg.requireShippedCa then some ((server R cfg x).killed stop d) else none

/-- A step of one of the servers. -/
def meshStep {ι : Type} [DecidableEq ι] (tar : Untar) (stream : List UInt8) (D : ι → Disk)
    (a : ι × Boot R) : Option (ι → Disk) :=
  (a.2.step tar stream (D a.1)).map fun d => Function.update D a.1 d

/-! ## What has come of the custody files -/

/-- Unpacking the beginning of an archive: the first files are complete, the others are as they
    were, and of one in between there may be a beginning. -/
theorem apply_unpacked {contents : Text → Content} {fs : List Text} {ws : List TarEntry}
    (h : Truncated (fs.map fun f => tarEntry f (contents f)) ws) (hnodup : fs.Nodup) (d : Disk) :
    let d' := d.apply (ws.map TarEntry.unpacked)
    ∃ done rest, fs = done ++ rest ∧
      (∀ f ∈ done, d' (inPki f) = some (contents f)) ∧
      (∀ f ∈ rest, d' (inPki f) = d (inPki f) ∨
        ∃ c, d' (inPki f) = some c ∧ c.bytes <+: (contents f).bytes) ∧
      (∀ f ∈ rest.tail, d' (inPki f) = d (inPki f)) ∧
      ∀ file, (∀ f ∈ fs, file ≠ inPki f) → d' file = d file := by
  induction fs generalizing ws d with
  | nil =>
    cases h
    exact ⟨[], [], rfl, nofun, nofun, nofun, fun _ _ => rfl⟩
  | cons f fs ih =>
    obtain ⟨hf, hnodup⟩ := List.nodup_cons.mp hnodup
    have hname : fromUtf8Lossy (utf8 f) = f := fromUtf8Lossy_utf8 f
    have hother : ∀ g ∈ fs, inPki g ≠ inPki f :=
      fun g hg heq => hf (inPki_injective heq ▸ hg)
    cases h with
    | nil => exact ⟨[], f :: fs, rfl, nofun, fun _ _ => Or.inl rfl, fun _ _ => rfl, fun _ _ => rfl⟩
    | @part _ _ data hdata =>
      have hset : d.apply ([⟨utf8 f, (contents f).bytes.length, data⟩].map TarEntry.unpacked) =
          d.set (inPki f) (Content.ofBytes data) := by
        show d.set (inPki (fromUtf8Lossy (utf8 f))) (Content.ofBytes data) = _
        rw [hname]
      simp only [tarEntry] at hdata ⊢
      rw [hset]
      refine ⟨[], f :: fs, rfl, nofun, fun g hg => ?_, fun g hg => ?_, fun file hfile => ?_⟩
      · rcases List.mem_cons.mp hg with rfl | hg
        · exact Or.inr ⟨_, Files.set_self .., by rwa [Content.bytes_ofBytes]⟩
        · exact Or.inl (Files.set_of_ne _ _ (hother g hg))
      · exact Files.set_of_ne _ _ (hother g hg)
      · exact Files.set_of_ne _ _ (hfile f List.mem_cons_self)
    | @cons _ _ ws h =>
      have hset : d.apply ((tarEntry f (contents f) :: ws).map TarEntry.unpacked) =
          (d.set (inPki f) (contents f)).apply (ws.map TarEntry.unpacked) := by
        show (d.set (inPki (fromUtf8Lossy (utf8 f))) (Content.ofBytes (contents f).bytes)).apply _ = _
        rw [hname, Content.bytes_injective (Content.bytes_ofBytes (contents f).bytes)]
      obtain ⟨done, rest, rfl, hdone, hrest, htail, hframe⟩ := ih h hnodup (d.set (inPki f) (contents f))
      simp only [hset]
      have hkept : ∀ g ∈ rest, d.set (inPki f) (contents f) (inPki g) = d (inPki g) :=
        fun g hg => Files.set_of_ne _ _ (hother g (List.mem_append_right _ hg))
      refine ⟨f :: done, rest, rfl, ?_, fun g hg => ?_, fun g hg => ?_, fun file hfile => ?_⟩
      · refine List.forall_mem_cons.mpr ⟨?_, hdone⟩
        rw [hframe _ fun g hg => (hother g hg).symm, Files.set_self]
      · exact (hrest g hg).imp_left fun heq => heq.trans (hkept g hg)
      · exact (htail g hg).trans (hkept g (List.mem_of_mem_tail hg))
      · obtain ⟨hne, hfile⟩ := List.forall_mem_cons.mp hfile
        exact (hframe file hfile).trans (Files.set_of_ne _ _ hne)

/-- Unpacking a whole archive. -/
theorem apply_unpacked_whole (contents : Text → Content) {fs : List Text} (hnodup : fs.Nodup)
    (d : Disk) : ∀ f ∈ fs,
      d.apply ((fs.map fun f => tarEntry f (contents f)).map TarEntry.unpacked) (inPki f) =
        some (contents f) := by
  have hunpacked : (TarEntry.unpacked ∘ fun f => tarEntry f (contents f)) =
      fun f => (inPki f, contents f) := by
    funext f
    show (inPki (fromUtf8Lossy (utf8 f)), Content.ofBytes (contents f).bytes) = _
    rw [fromUtf8Lossy_utf8, Content.bytes_injective (Content.bytes_ofBytes (contents f).bytes)]
  rw [List.map_map, hunpacked]
  induction fs generalizing d with
  | nil => exact nofun
  | cons f fs ih =>
    obtain ⟨hf, hnodup⟩ := List.nodup_cons.mp hnodup
    refine List.forall_mem_cons.mpr ⟨?_, ih hnodup _⟩
    rw [List.map_cons, Files.apply_cons, Files.apply_of_forall_ne _ fun w hw heq => ?_, Files.set_self]
    obtain ⟨g, hg, rfl⟩ := List.mem_map.mp hw
    exact hf (inPki_injective heq ▸ hg)

/-- A custody file is a beginning of the launcher's, and is complete if a later one is not
    empty. -/
structure Landed (d₀ d : Disk) : Prop where
  part : ∀ f ∈ CUSTODY_FILES, ∀ c, d (inPki f) = some c →
    ∃ c₀, d₀ (inPki f) = some c₀ ∧ c.bytes <+: c₀.bytes
  order : CUSTODY_FILES.Pairwise fun f g =>
    isNonEmpty (d (inPki g)) = true → d (inPki f) = d₀ (inPki f)

/-- The launcher serves this stream from its directory. -/
structure Served (d₀ : Disk) (contents : Text → Content) (stream : List UInt8) : Prop where
  files : ∀ f ∈ CUSTODY_FILES, d₀ (inPki f) = some (contents f)
  nonEmpty : ∀ f ∈ CUSTODY_FILES, isNonEmpty (d₀ (inPki f)) = true
  parse : parseTar stream = some (CUSTODY_FILES.map fun f => tarEntry f (contents f))

/-- A header has no room for the size of a file of 8 GiB. -/
theorem size_of_tarHeader {name : Text} {size : ℕ} {h : List UInt8}
    (hheader : tarHeader name size = some h) : size < 8 ^ 11 := by
  by_contra hlarge
  have hdigits : ¬ (Nat.toDigits 8 size).length ≤ 11 := fun hle =>
    hlarge ((Nat.length_toDigits_le_iff (b := 8) (by decide) (by decide)).mp hle)
  have hlen : 12 < (utf8 (octal 11 size ++ "\x00".toList)).length := by
    rw [utf8_append, List.length_append, utf8_of_ascii ascii_octal, List.length_map]
    unfold octal
    have hzero : (utf8 "\x00".toList).length = 1 := rfl
    rw [List.length_append, hzero]
    omega
  unfold tarHeader at hheader
  obtain ⟨h₁, -, hheader⟩ := Option.bind_eq_some_iff.mp hheader
  obtain ⟨h₂, -, hheader⟩ := Option.bind_eq_some_iff.mp hheader
  obtain ⟨h₃, -, hheader⟩ := Option.bind_eq_some_iff.mp hheader
  obtain ⟨h₄, -, hheader⟩ := Option.bind_eq_some_iff.mp hheader
  obtain ⟨h₅, hsize, -⟩ := Option.bind_eq_some_iff.mp hheader
  have hcopied : copyFromSlice h₄ 124 136 (utf8 (octal 11 size ++ "\x00".toList)) = none :=
    if_neg fun hfits => hlen.ne' hfits.2.2
  rw [hcopied] at hsize
  cases hsize

theorem tarFile_allWrites (out : List UInt8) (f : Text) : (tarFile out f).AllWrites fun _ _ => False := by
  refine (FileProg.AllWrites.readFile _).bind fun c => ?_
  match c with
  | none => trivial
  | some c =>
    simp only
    cases tarHeader f c.bytes.length with
    | none => trivial
    | some h => trivial

theorem run_files_of_allWrites {α : Type} {m : Prog α} (h : m.AllWrites fun _ _ => False) (d : Disk) :
    (m.run d).2 = d :=
  funext fun _ => h.frame_run (fun _ hno => hno) d

/-- The files of an archive that was written are not too large. -/
theorem sizes_of_tarFiles {d : Disk} {contents : Text → Content} {fs : List Text}
    {out stream : List UInt8} (hfiles : ∀ f ∈ fs, d (inPki f) = some (contents f))
    (hrun : ((fs.foldlM tarFile out).run d).1 = .ok stream) :
    ∀ f ∈ fs, (contents f).bytes.length < 8 ^ 11 := by
  induction fs generalizing out with
  | nil => exact nofun
  | cons f fs ih =>
    obtain ⟨hfile, hfiles⟩ := List.forall_mem_cons.mp hfiles
    rw [List.foldlM_cons] at hrun
    obtain ⟨out', hout⟩ := FileProg.ok_of_run_bind_ok hrun
    rw [FileProg.run_bind_of_ok hout, run_files_of_allWrites (tarFile_allWrites _ _)] at hrun
    refine List.forall_mem_cons.mpr ⟨?_, ih hfiles hrun⟩
    unfold tarFile at hout
    rw [FileProg.run_readFile_bind, hfile] at hout
    cases hheader : tarHeader f (contents f).bytes.length with
    | none =>
      simp only [hheader] at hout
      cases hout
    | some h => exact size_of_tarHeader hheader

/-- What the launcher serves, if it serves anything. -/
theorem served_of_serve {d₀ : Disk} {dir listen : Text} {stream : List UInt8}
    (h : ((serve dir listen).run d₀).1 = .ok stream) : ∃ contents, Served d₀ contents stream := by
  unfold serve at h
  by_cases hargs : dir = [] ∨ listen = []
  · rw [if_pos hargs] at h
    cases h
  rw [if_neg hargs] at h
  beta_reduce at h
  rw [FileProg.run_bind, run_missingFiles] at h
  simp only at h
  by_cases hmissing : (CUSTODY_FILES.filter fun f => !isNonEmpty (d₀ (inPki f))) = []
  swap
  · rw [if_pos hmissing] at h
    cases h
  rw [if_neg (not_not.mpr hmissing)] at h
  have hall : ∀ f ∈ CUSTODY_FILES, isNonEmpty (d₀ (inPki f)) = true := fun f hf => by
    simpa using List.filter_eq_nil_iff.mp hmissing f hf
  have hsome : ∀ f ∈ CUSTODY_FILES, d₀ (inPki f) = some ((d₀ (inPki f)).getD (.text [])) := by
    intro f hf
    have := hall f hf
    cases hd : d₀ (inPki f) with
    | none =>
      rw [hd] at this
      cases this
    | some c => rfl
  refine ⟨fun f => (d₀ (inPki f)).getD (.text []), hsome, hall, ?_⟩
  have hnames : ∀ f ∈ CUSTODY_FILES, (utf8 f).length < 100 ∧ 0 ∉ utf8 f := by decide
  unfold tarBundle at h
  obtain ⟨out, hout⟩ := FileProg.ok_of_run_bind_ok h
  have hsizes := sizes_of_tarFiles hsome hout
  obtain ⟨archive, hrun, -, hparse⟩ := @run_tarFiles _ _ _ [] hsome
    (fun f hf => ⟨(hnames f hf).1, (hnames f hf).2, hsizes f hf⟩) (dvd_zero _)
  rw [FileProg.run_bind, hrun] at h
  have hstream : (Except.ok (resize ([] ++ archive) (([] ++ archive).length + 1024)) :
      Except Exit (List UInt8)) = .ok stream := h
  rw [← Except.ok.inj hstream]
  unfold resize
  rw [List.nil_append, Nat.add_sub_cancel_left, hparse, parseTar_end, Option.map_some, List.append_nil]

section Landed

variable {d₀ d : Disk} {contents : Text → Content} {stream : List UInt8}

theorem Landed.empty (d₀ : Disk) : Landed d₀ fun _ => none where
  part := nofun
  order := List.pairwise_of_forall nofun

/-- A run that writes no custody file. -/
theorem Landed.congr {d' : Disk} (h : Landed d₀ d)
    (heq : ∀ f ∈ CUSTODY_FILES, d' (inPki f) = d (inPki f)) : Landed d₀ d' where
  part f hf c hc := h.part f hf c ((heq f hf).symm.trans hc)
  order := h.order.imp_of_mem fun {f g} hf hg hfg hne => by
    rw [heq f hf]
    exact hfg (by rwa [← heq g hg])

/-- A server that finds a whole bundle holds all of it but the end of the last file. -/
theorem Landed.trusted (h : Landed d₀ d) (hall : ∀ f ∈ CUSTODY_FILES, isNonEmpty (d (inPki f)) = true) :
    ∀ f ∈ CUSTODY_FILES, f ≠ "sa.pub".toList → d (inPki f) = d₀ (inPki f) := by
  intro f hf hne
  have hsplit : CUSTODY_FILES = CUSTODY_FILES.dropLast ++ ["sa.pub".toList] := rfl
  have horder := h.order
  rw [hsplit, List.pairwise_append] at horder
  rw [hsplit, List.mem_append, List.mem_singleton] at hf
  exact horder.2.2 f (hf.resolve_right hne) _ List.mem_cons_self (hall _ (by decide))

/-- A fetch keeps what has come in order: it takes nothing once there is a key, and before
    that there is nothing after the key. -/
theorem Landed.fetch {tar : Untar} (htar : tar.Lawful) (hs : Served d₀ contents stream)
    (h : Landed d₀ d) (n : ℕ) (stop : Option ℕ) : Landed d₀ (caFetch tar stream n stop d) := by
  unfold caFetch
  split_ifs with hkey
  · exact h
  obtain ⟨done, rest, hfs, hdone, hrest, htail, -⟩ :=
    apply_unpacked (htar.truncated hs.parse n stop) (by decide) d
  constructor
  · intro f hf c hc
    have hpart : f ∈ done ∨ f ∈ rest := List.mem_append.mp (hfs ▸ hf)
    rcases hpart with hmem | hmem
    · obtain rfl : contents f = c := Option.some.inj ((hdone f hmem).symm.trans hc)
      exact ⟨_, hs.files f hf, List.prefix_rfl⟩
    · rcases hrest f hmem with heq | ⟨c', hc', hbegin⟩
      · exact h.part f hf c (heq.symm.trans hc)
      · obtain rfl : c' = c := Option.some.inj (hc'.symm.trans hc)
        exact ⟨_, hs.files f hf, hbegin⟩
  · -- before the fetch, no file after `ca.key` has come
    have hlater : ∀ g ∈ CUSTODY_FILES.tail, isNonEmpty (d (inPki g)) = true → False := by
      intro g hg hne
      have hkeyed := (List.pairwise_cons.mp h.order).2
      rcases List.mem_cons.mp (show g ∈ "ca.key".toList :: CUSTODY_FILES.tail.tail from hg) with rfl | hg
      · exact hkey hne
      · have hfull := (List.pairwise_cons.mp hkeyed).1 g hg hne
        rw [hfull] at hkey
        exact hkey (hs.nonEmpty _ (by decide))
    have hnone : ∀ g ∈ rest.tail, isNonEmpty
        (d.apply ((tar (stream.take n) stop).map TarEntry.unpacked) (inPki g)) = true → False := by
      intro g hg hne
      refine hlater g ?_ (by rwa [← htail g hg])
      rw [hfs]
      cases done with
      | nil => exact hg
      | cons f done => exact List.mem_append_right _ (List.mem_of_mem_tail hg)
    have hcomplete : ∀ f ∈ done,
        d.apply ((tar (stream.take n) stop).map TarEntry.unpacked) (inPki f) = d₀ (inPki f) := fun f hf =>
      (hdone f hf).trans (hs.files f (hfs ▸ List.mem_append_left _ hf)).symm
    rw [hfs]
    refine List.pairwise_append.mpr ⟨?_, ?_, fun f hf _ _ _ => hcomplete f hf⟩
    · exact List.pairwise_of_forall_mem_list fun f hf _ _ _ => hcomplete f hf
    · cases rest with
      | nil => exact .nil
      | cons f rest =>
        refine .cons (fun g hg hne => (hnone g hg hne).elim) ?_
        exact List.pairwise_of_forall_mem_list fun _ _ g hg hne => (hnone g hg hne).elim

end Landed

/-! ## The leaves -/

/-- The CA that signs a leaf. -/
def rootOf (name : Text) : Text :=
  if name = "front-proxy-client".toList then "front-proxy-ca".toList else "ca".toList

/-- The content is a certificate that verifies with the certificate of a CA in the directory. -/
def Verifies (R : Rcgen) (d : Disk) (root : Text) (c : Content) : Prop :=
  ∃ leaf ca, c = .text (R.certPem leaf) ∧
    d (inPki (root ++ ".crt".toList)) = some (.text (R.certPem ca)) ∧
    leaf.issuer = ca.subject ∧ leaf.signer = ca.pub

/-- The content is a certificate that the issuer has signed. -/
def SignedBy (i : Issuer R) (c : Content) : Prop :=
  ∃ leaf, c = .text (R.certPem leaf) ∧ leaf.issuer = i.subject ∧ leaf.signer = R.pub i.key

theorem Verifies.congr {d d' : Disk} {root : Text} {c : Content} (h : Verifies R d root c)
    (heq : d' (inPki (root ++ ".crt".toList)) = d (inPki (root ++ ".crt".toList))) :
    Verifies R d' root c := by
  obtain ⟨leaf, ca, hc, hca, hsigned⟩ := h
  exact ⟨leaf, ca, hc, heq.trans hca, hsigned⟩

/-- What an issuer has signed verifies with its certificate. -/
theorem SignedBy.verifies (hR : R.Lawful) {d : Disk} {root : Text} {i : Issuer R} {c : Content}
    (hmatch : CaMatches R root d) (hload : ((loadIssuer R root).run d).1 = .ok i)
    (h : SignedBy i c) : Verifies R d root c := by
  obtain ⟨k, ca, hkey, hcrt, hpub⟩ := hmatch
  obtain ⟨leaf, hc, hissuer, hsigner⟩ := h
  have hi : i = ⟨ca.subject, k, R.certPem ca, root⟩ := by
    unfold loadIssuer at hload
    rw [run_readToString_bind, hcrt, decodeText_text] at hload
    simp only at hload
    rw [run_readToString_bind, hkey, decodeText_text] at hload
    simp only [hR.keyFromPem_keyPem, hR.certFromPem_certPem] at hload
    exact (Except.ok.inj hload).symm
  subst hi
  exact ⟨leaf, ca, hc, hcrt, hissuer, hsigner.trans hpub.symm⟩

theorem issuer_serverLeaves {cfg : Cfg} {ip : Text} {ca fpCa : Issuer R} {l : Leaf R}
    (hl : l ∈ serverLeaves cfg ip ca fpCa) :
    l.issuer = if l.name = "front-proxy-client".toList then fpCa else ca := by
  unfold serverLeaves at hl
  rw [List.mem_append, List.mem_append] at hl
  rcases hl with (hl | hl) | hl
  · simp only [clusterLeaves, List.mem_cons, List.not_mem_nil, or_false] at hl
    rcases hl with rfl | rfl | rfl | rfl | rfl | rfl | rfl | rfl | rfl | rfl <;> rfl
  · split_ifs at hl
    · simp only [etcdLeaves, List.mem_cons, List.not_mem_nil, or_false] at hl
      rcases hl with rfl | rfl <;> rfl
    · cases hl
  · obtain ⟨node, -, hl⟩ := List.mem_flatMap.mp hl
    have hne : ∀ file, nodePath node.1.1 file ≠ "front-proxy-client".toList := by
      intro file h
      have hhead : some 'n' = "front-proxy-client".toList.head? := congrArg List.head? h
      exact absurd hhead (by decide)
    simp only [nodeLeaves, List.mem_cons, List.not_mem_nil, or_false] at hl
    rcases hl with rfl | rfl
    · exact (if_neg (hne _)).symm
    · exact (if_neg (hne _)).symm

/-- A run of `ensure` writes a certificate that the issuer of the leaf has signed. -/
theorem ensure_signed (i : Issue) (l : Leaf R) (now : Clock) (g : Gen R) :
    (ensure R i l now g).AllWrites fun f c =>
      f ∈ leafFiles l.name ∧ (f = crtFile l.name → SignedBy l.issuer c) := by
  unfold ensure
  refine (allWrites_readToString _).bind fun crt => (allWrites_pathExists _).bind fun keyExists =>
    (allWrites_readToString _).bind fun fp => ?_
  cases upToDate R i l now.secs crt keyExists fp with
  | true => trivial
  | false =>
    cases g.after.addDays i.leafDays with
    | none => trivial
    | some notAfter =>
      cases parseSans l.san with
      | error e => trivial
      | ok sans =>
        refine ⟨⟨Or.inl rfl, fun h => (keyFile_ne_crtFile _ h).elim⟩, ⟨Or.inr (Or.inl rfl), fun _ => ?_⟩,
          ⟨Or.inr (Or.inr rfl), fun h => (fpFile_ne_crtFile _ h).elim⟩, trivial⟩
        exact ⟨leafCert R l g notAfter sans, rfl, rfl, rfl⟩

/-- What the leaves of a directory hold. -/
def LeavesVerify (R : Rcgen) (d₀ d : Disk) : Prop :=
  ∀ name c, LeafName name → d (crtFile name) = some c → Verifies R d₀ (rootOf name) c

section Run

variable {cfg : Cfg} {x : ServerInput R} {d₀ d : Disk}

theorem writes_eq_nil {α : Type} {m : Prog α} (h : m.AllWrites fun _ _ => False) (d : Disk) :
    m.writes d = [] :=
  List.eq_nil_iff_forall_not_mem.mpr fun w hw => h.writes d w hw

/-- A run after the trust roots writes nothing, or has loaded its issuers. -/
theorem writes_issueAll (cfg : Cfg) (x : ServerInput R) (d : Disk) :
    (issueAll R cfg x).writes d = [] ∨ ∃ ca fpCa, HasIssuers ca fpCa d ∧
      (issueAll R cfg x).writes d =
        (do issueLeaves R cfg x ca fpCa; distribute cfg : Prog Unit).writes d := by
  rw [issueAll_eq]
  cases hca : ((loadIssuer R "ca".toList).run d).1 with
  | error e =>
    left
    rw [FileProg.writes_bind, writes_eq_nil (loadIssuer_allWrites _), ← Prod.mk.eta (p := (loadIssuer R _).run d), hca]
    rfl
  | ok ca =>
    rw [FileProg.writes_bind_of_ok hca, writes_eq_nil (loadIssuer_allWrites _), List.nil_append, Files.apply_nil]
    cases hfpCa : ((loadIssuer R "front-proxy-ca".toList).run d).1 with
    | error e =>
      left
      rw [FileProg.writes_bind, writes_eq_nil (loadIssuer_allWrites _), ← Prod.mk.eta (p := (loadIssuer R _).run d), hfpCa]
      rfl
    | ok fpCa =>
      right
      rw [FileProg.writes_bind_of_ok hfpCa, writes_eq_nil (loadIssuer_allWrites _), List.nil_append, Files.apply_nil]
      exact ⟨ca, fpCa, ⟨hca, hfpCa⟩, rfl⟩

/-- A run that checks the trust roots writes nothing, or has found all of them and goes on. -/
theorem writes_server (hshipped : cfg.requireShippedCa = true) (x : ServerInput R) (d : Disk) :
    (server R cfg x).writes d = [] ∨
      (∀ f ∈ CUSTODY_FILES, isNonEmpty (d (inPki f)) = true) ∧
        (server R cfg x).writes d = (issueAll R cfg x).writes d := by
  have hchecks : (trustRoots R cfg x.mint).AllWrites fun _ _ => False := by
    unfold trustRoots
    rw [if_pos hshipped]
    refine (allWrites_missingFiles _).bind fun missing => ?_
    split_ifs <;> trivial
  unfold server
  rw [FileProg.writes_bind, writes_eq_nil hchecks, List.nil_append]
  by_cases hall : ∀ f ∈ CUSTODY_FILES, isNonEmpty (d (inPki f)) = true
  · rw [trustRoots_of_shipped hshipped hall]
    exact Or.inr ⟨hall, rfl⟩
  · push Not at hall
    obtain ⟨f, hf, hempty⟩ := hall
    obtain ⟨msg, hrun⟩ :=
      trustRoots_of_missing (R := R) (g := x.mint) hshipped ⟨f, hf, Bool.eq_false_iff.mpr hempty⟩
    rw [hrun]
    exact Or.inl rfl

/-- The leaves that a run writes are signed by the issuers in its directory. -/
theorem issueLeaves_signed (cfg : Cfg) (x : ServerInput R) (ca fpCa : Issuer R) {name : Text}
    (hname : LeafName name) :
    (do issueLeaves R cfg x ca fpCa; distribute cfg : Prog Unit).AllWrites fun f c =>
      f = crtFile name → SignedBy (if name = "front-proxy-client".toList then fpCa else ca) c := by
  refine (FileProg.AllWrites.forM fun p hp => ?_).bind fun _ => ?_
  · have hl := List.fst_mem_of_mem_zipIdx hp
    refine (ensure_signed _ p.1 _ _).mono ?_
    rintro f c ⟨hf, hsigned⟩ rfl
    have hsame : name = p.1.name := by
      by_contra hne
      exact Set.disjoint_left.mp (leafFiles_disjoint hname (leafName_of_mem hl) hne)
        (Or.inr (Or.inl rfl)) hf
    subst hsame
    rw [← issuer_serverLeaves hl]
    exact hsigned rfl
  · refine (distribute_allWrites cfg).mono ?_
    rintro f c hdist rfl
    exact (not_distributed hname (Or.inr (Or.inl rfl)) hdist).elim

end Run

/-! ## The mesh -/

theorem notCustody_crtFile {name : Text} (hname : LeafName name) : NotCustody (crtFile name) := by
  have hcluster : ∀ name ∈ CLUSTER_LEAVES, NotCustody (crtFile name) := by decide
  rcases hname with hname | ⟨node, hname⟩
  · exact hcluster name hname
  · obtain ⟨file, -, rfl⟩ := List.mem_map.mp hname
    exact (safeLeaf_nodePath _ _).2.1

/-- What holds of the directory of every server. -/
structure Sound (R : Rcgen) (d₀ d : Disk) : Prop where
  landed : Landed d₀ d
  leaves : LeavesVerify R d₀ d

section Mesh

variable {d₀ d d' : Disk} {contents : Text → Content} {stream : List UInt8} {tar : Untar}

/-- With trust roots that have come, a run loads the issuers of the launcher. -/
theorem Landed.hasIssuers {ca fpCa : Issuer R} (h : Landed d₀ d)
    (hall : ∀ f ∈ CUSTODY_FILES, isNonEmpty (d (inPki f)) = true) (hissuers : HasIssuers ca fpCa d) :
    HasIssuers ca fpCa d₀ := by
  refine hissuers.congr fun f hf => ?_
  obtain ⟨path, hpath, rfl⟩ := List.mem_map.mp hf
  have hca : ∀ path ∈ CA_FILES, path ∈ CUSTODY_FILES ∧ path ≠ "sa.pub".toList := by decide
  exact (h.trusted hall path (hca path hpath).1 (hca path hpath).2).symm

theorem Sound.run (hR : R.Lawful) (hcustody : Custody R d₀) (h : Sound R d₀ d) {cfg : Cfg}
    (hshipped : cfg.requireShippedCa = true) (x : ServerInput R) (stop : ℕ) :
    Sound R d₀ ((server R cfg x).killed stop d) := by
  unfold FileProg.killed
  rcases writes_server hshipped x d with hnil | ⟨hall, hwrites⟩
  · rw [hnil, List.take_nil, Files.apply_nil]
    exact h
  rw [hwrites]
  constructor
  · refine h.landed.congr fun f hf => Files.apply_of_forall_ne d fun w hw => ?_
    exact ((issueAll_allWrites cfg x).writes d w (List.mem_of_mem_take hw)).ne hf
  · intro name c hname hc
    rcases writes_issueAll cfg x d with hnil | ⟨ca, fpCa, hissuers, hleaves⟩
    · rw [hnil, List.take_nil, Files.apply_nil] at hc
      exact h.leaves name c hname hc
    rw [hleaves] at hc
    rcases Files.apply_cases d (((do issueLeaves R cfg x ca fpCa; distribute cfg : Prog Unit).writes
      d).take stop) (crtFile name) with heq | ⟨c', hmem, heq⟩
    · exact h.leaves name c hname (heq.symm.trans hc)
    · obtain rfl : c' = c := Option.some.inj (heq.symm.trans hc)
      have hsigned := (issueLeaves_signed cfg x ca fpCa hname).writes d _ (List.mem_of_mem_take hmem) rfl
      have hroot := h.landed.hasIssuers hall hissuers
      unfold rootOf
      split_ifs at hsigned ⊢
      · exact hsigned.verifies hR hcustody.2.2.1 hroot.frontProxy
      · exact hsigned.verifies hR hcustody.2.1 hroot.ca

theorem Sound.fetch (htar : tar.Lawful) (hs : Served d₀ contents stream) (h : Sound R d₀ d) (n : ℕ)
    (stop : Option ℕ) : Sound R d₀ (caFetch tar stream n stop d) where
  landed := h.landed.fetch htar hs n stop
  leaves name c hname hc := by
    refine h.leaves name c hname (Eq.trans ?_ hc)
    unfold caFetch
    split_ifs with hkey
    · rfl
    · obtain ⟨-, -, -, -, -, -, hframe⟩ := apply_unpacked (htar.truncated hs.parse n stop) (by decide) d
      exact (hframe _ fun f hf => (notCustody_crtFile hname).ne hf).symm

theorem sound_step (hR : R.Lawful) (htar : tar.Lawful) (hcustody : Custody R d₀)
    (hs : Served d₀ contents stream) (h : Sound R d₀ d) {b : Boot R}
    (hstep : b.step tar stream d = some d') : Sound R d₀ d' := by
  cases b with
  | fetch n stop =>
    cases hstep
    exact h.fetch htar hs n stop
  | run cfg x stop =>
    simp only [Boot.step] at hstep
    split_ifs at hstep with hshipped
    cases hstep
    exact h.run hR hcustody hshipped x stop

/-- A fetch that gets the whole stream, and is not killed. -/
theorem caFetch_whole (htar : tar.Lawful) (hs : Served d₀ contents stream) {n : ℕ}
    (hn : stream.length ≤ n) (hkey : isNonEmpty (d (inPki "ca.key".toList)) = false) :
    ∀ f ∈ CUSTODY_FILES, caFetch tar stream n none d (inPki f) = d₀ (inPki f) := by
  intro f hf
  unfold caFetch
  rw [if_neg (by rw [hkey]; exact Bool.false_ne_true), List.take_of_length_le hn, htar.whole hs.parse,
    hs.files f hf]
  exact apply_unpacked_whole contents (by decide) d f hf

/-- What holds of all directories. -/
def AllSound {ι : Type} (R : Rcgen) (d₀ : Disk) (D : ι → Disk) : Prop := ∀ i, Sound R d₀ (D i)

theorem allSound_step {ι : Type} [DecidableEq ι] (hR : R.Lawful) (htar : tar.Lawful)
    (hcustody : Custody R d₀) (hs : Served d₀ contents stream) {D D' : ι → Disk} {a : ι × Boot R}
    (hstep : meshStep tar stream D a = some D') (h : AllSound R d₀ D) : AllSound R d₀ D' := by
  obtain ⟨d', hd', rfl⟩ := Option.map_eq_some_iff.mp hstep
  intro j
  by_cases hj : j = a.1
  · rw [hj, Function.update_self]
    exact sound_step hR htar hcustody hs (h a.1) hd'
  · rw [Function.update_of_ne hj]
    exact h j

/-- A mesh whose servers fetch the bundle that its launcher serves, in any order, with transfers
    that break off and runs that are killed. A server that writes anything beyond the bundle has
    the trust roots of the launcher (but possibly not all of `sa.pub`). A leaf of any server
    verifies with the trust roots of any server that goes on with its own. A server whose fetch
    is not cut short has everything. -/
theorem trust_shared {ι : Type} [DecidableEq ι] (hR : R.Lawful) (htar : tar.Lawful)
    {dir listen : Text} (hcustody : Custody R d₀)
    (hserve : ((serve dir listen).run d₀).1 = .ok stream) {as : List (ι × Boot R)} {D : ι → Disk}
    (hexec : exec (meshStep tar stream) (fun _ _ => none) as = some D) (i : ι) :
    (∀ cfg x, cfg.requireShippedCa = true → (server R cfg x).writes (D i) ≠ [] →
      ∀ f ∈ CUSTODY_FILES, f ≠ "sa.pub".toList → D i (inPki f) = d₀ (inPki f)) ∧
    (∀ name c, LeafName name → D i (crtFile name) = some c →
      ∀ j, (∀ f ∈ CUSTODY_FILES, isNonEmpty (D j (inPki f)) = true) →
        Verifies R (D j) (rootOf name) c) ∧
    (∀ n, stream.length ≤ n → isNonEmpty (D i (inPki "ca.key".toList)) = false →
      ∀ f ∈ CUSTODY_FILES, caFetch tar stream n none (D i) (inPki f) = d₀ (inPki f)) := by
  obtain ⟨contents, hs⟩ := served_of_serve hserve
  have hsound : ∀ j, Sound R d₀ (D j) := by
    have hstep : ∀ (D : ι → Disk) a D', meshStep tar stream D a = some D' → AllSound R d₀ D →
        AllSound R d₀ D' := fun _ _ _ => allSound_step hR htar hcustody hs
    exact exec_invariant hstep hexec fun _ => ⟨.empty d₀, nofun⟩
  refine ⟨fun cfg x hshipped hwrites => ?_, fun name c hname hc j hall => ?_, fun n hn hkey => ?_⟩
  · obtain ⟨hall, -⟩ := (writes_server hshipped x (D i)).resolve_left hwrites
    exact (hsound i).landed.trusted hall
  · refine ((hsound i).leaves name c hname hc).congr ?_
    have hroot : rootOf name ++ ".crt".toList ∈ CUSTODY_FILES ∧
        rootOf name ++ ".crt".toList ≠ "sa.pub".toList := by
      unfold rootOf
      split_ifs <;> decide
    exact (hsound j).landed.trusted hall _ hroot.1 hroot.2
  · exact caFetch_whole htar hs hn hkey

/-- A directory with all files is served. -/
theorem serve_ok {dir listen : Text} (hdir : dir ≠ []) (hlisten : listen ≠ [])
    (hfiles : ∀ f ∈ CUSTODY_FILES, d₀ (inPki f) = some (contents f))
    (hnonEmpty : ∀ f ∈ CUSTODY_FILES, isNonEmpty (d₀ (inPki f)) = true)
    (hsizes : ∀ f ∈ CUSTODY_FILES, (contents f).bytes.length < 8 ^ 11) :
    ∃ stream, ((serve dir listen).run d₀).1 = .ok stream := by
  have hnames : ∀ f ∈ CUSTODY_FILES, (utf8 f).length < 100 ∧ 0 ∉ utf8 f := by decide
  obtain ⟨archive, hrun, -⟩ := @run_tarFiles _ _ _ [] hfiles
    (fun f hf => ⟨(hnames f hf).1, (hnames f hf).2, hsizes f hf⟩) (dvd_zero _)
  refine ⟨resize ([] ++ archive) (([] ++ archive).length + 1024), ?_⟩
  unfold serve
  rw [if_neg (not_or.mpr ⟨hdir, hlisten⟩)]
  beta_reduce
  rw [FileProg.run_bind, run_missingFiles, filter_missing_eq_nil hnonEmpty]
  simp only [ne_eq, not_true_eq_false, if_false]
  unfold tarBundle
  rw [FileProg.run_bind, hrun]
  rfl

end Mesh

/-! ## A `tar` that reads blocks -/

/-- Members as far as there are whole headers, the last one with the bytes that there are. -/
def untar (p : List UInt8) : List TarEntry :=
  if 512 ≤ p.length then
    if (p.take 512).any (· ≠ 0) then
      match parseHeader (p.take 512) with
      | none => []
      | some (name, size) =>
        ⟨name, size, (p.drop 512).take size⟩ :: untar ((p.drop 512).drop (nextMultipleOf size 512))
    else []
  else []
  termination_by p.length
  decreasing_by
    rw [List.length_drop, List.length_drop]
    omega

theorem untar_of_short {p : List UInt8} (h : p.length < 512) : untar p = [] := by
  rw [untar, if_neg (not_le.mpr h)]

/-- A stream that breaks off anywhere, or that has come whole. -/
theorem untar_take {p : List UInt8} {es : List TarEntry} (h : parseTar p = some es) (n : ℕ) :
    Truncated es (untar (p.take n)) ∧ (p.length ≤ n → untar (p.take n) = es) := by
  induction hlen : p.length using Nat.strong_induction_on generalizing p es n with
  | _ len ih =>
    subst hlen
    rw [parseTar] at h
    by_cases hp : 512 ≤ p.length
    swap
    · rw [if_neg hp] at h
      cases h
    rw [if_pos hp] at h
    by_cases hn : n < 512
    · rw [untar_of_short ((List.length_take_le n p).trans_lt hn)]
      exact ⟨.nil es, fun hle => by omega⟩
    have hhead : (p.take n).take 512 = p.take 512 := by
      rw [List.take_take, min_eq_left (not_lt.mp hn)]
    have hlong : 512 ≤ (p.take n).length := by
      rw [List.length_take]
      omega
    rw [untar, if_pos hlong, hhead]
    by_cases hany : (p.take 512).any (· ≠ 0) = true
    swap
    · rw [if_neg hany] at h ⊢
      split_ifs at h
      cases h
      exact ⟨.nil [], fun _ => rfl⟩
    rw [if_pos hany] at h ⊢
    cases hparse : parseHeader (p.take 512) with
    | none =>
      rw [hparse] at h
      cases h
    | some header =>
      obtain ⟨name, size⟩ := header
      rw [hparse] at h
      simp only at h
      by_cases hsize : size ≤ (p.drop 512).length
      swap
      · rw [if_neg hsize] at h
        cases h
      rw [if_pos hsize] at h
      obtain ⟨es, hes, rfl⟩ := Option.map_eq_some_iff.mp h
      have hdata : (p.take n).drop 512 = (p.drop 512).take (n - 512) := List.drop_take
      simp only [hdata]
      rw [List.length_drop] at hsize
      have hmultiple := le_nextMultipleOf size
      by_cases hwhole : size ≤ n - 512
      · -- the whole member has come
        have htake : ((p.drop 512).take (n - 512)).take size = (p.drop 512).take size := by
          rw [List.take_take, min_eq_left hwhole]
        have hrest : ((p.drop 512).drop (nextMultipleOf size 512)).length < p.length := by
          rw [List.length_drop, List.length_drop]
          omega
        obtain ⟨hpart, hall⟩ := ih _ hrest hes (n - 512 - nextMultipleOf size 512) rfl
        rw [htake, List.drop_take]
        refine ⟨.cons _ hpart, fun hle => congrArg _ (hall ?_)⟩
        rw [List.length_drop, List.length_drop]
        omega
      · -- the stream breaks off in this member
        have hrest : ((p.drop 512).take (n - 512)).drop (nextMultipleOf size 512) = [] := by
          rw [List.drop_eq_nil_iff, List.length_take]
          omega
        rw [hrest, untar_of_short (by decide), List.take_take]
        exact ⟨.part ⟨name, size, _⟩ es (List.take_prefix_take_left (min_le_left _ _)),
          fun hle => by omega⟩

/-- An archive is a number of blocks. -/
theorem dvd_length_of_parseTar {p : List UInt8} {es : List TarEntry} (h : parseTar p = some es) :
    512 ∣ p.length := by
  induction hlen : p.length using Nat.strong_induction_on generalizing p es with
  | _ len ih =>
    subst hlen
    rw [parseTar] at h
    split_ifs at h with hp hany hzero
    · cases hparse : parseHeader (p.take 512) with
      | none =>
        rw [hparse] at h
        cases h
      | some header =>
        obtain ⟨name, size⟩ := header
        rw [hparse] at h
        simp only at h
        split_ifs at h with hsize
        obtain ⟨es, hes, -⟩ := Option.map_eq_some_iff.mp h
        have hmultiple := dvd_nextMultipleOf size
        have hrest := ih _ (by rw [List.length_drop, List.length_drop]; omega) hes rfl
        -- an archive is not empty, so that the padding has come
        have hlong : 512 ≤ ((p.drop 512).drop (nextMultipleOf size 512)).length := by
          by_contra hshort
          rw [parseTar, if_neg hshort] at hes
          cases hes
        rw [List.length_drop, List.length_drop] at hrest hlong
        omega
    · rw [hzero, List.length_replicate]
      decide

/-- It does not see a part of a block at the end, and may be killed after some bytes. -/
def untarBlocks : Untar := fun p stop =>
  untar ((p.take (p.length / 512 * 512)).take (stop.getD p.length))

theorem lawful_untarBlocks : Untar.Lawful untarBlocks where
  truncated h n stop := by
    unfold untarBlocks
    rw [List.take_take, List.take_take]
    exact (untar_take h _).1
  whole {p es} h := by
    unfold untarBlocks
    rw [Nat.div_mul_cancel (dvd_length_of_parseTar h), Option.getD_none, List.take_take]
    exact (untar_take h _).2 (le_min le_rfl le_rfl)

/-! A stand-in for the libraries in which the certificate of one CA is short. -/

deriving instance DecidableEq for Cert

/-- A self-signed certificate. -/
def briefCert : Cert ℕ := caCert Rcgen.unary "kubenyx-ca".toList (Gen.sample 0)

def Rcgen.brief : Rcgen where
  Key := ℕ
  Pub := ℕ
  pub := id
  keyPem := Pki.unary 'K'
  keyFromPem := Pki.unary?
  certPem c := if c = briefCert then ['R'] else Pki.unary 'C' c
  certFromPem t := if t = ['R'] then .ok briefCert else Pki.unary? t
  saKeyPem := Pki.unary 'S'
  saPubPem := Pki.unary 'P'

theorem Rcgen.brief_lawful : Rcgen.brief.Lawful where
  pub_injective := Rcgen.unary_lawful.pub_injective
  keyFromPem_keyPem := Rcgen.unary_lawful.keyFromPem_keyPem
  certFromPem_certPem (c : Cert ℕ) := by
    show (if (if c = briefCert then ['R'] else Pki.unary 'C' c) = ['R'] then Except.ok briefCert
      else Pki.unary? (if c = briefCert then ['R'] else Pki.unary 'C' c)) = .ok c
    by_cases hc : c = briefCert
    · rw [if_pos hc, if_pos rfl, hc]
    · have htag : Pki.unary 'C' c ≠ ['R'] := fun h => absurd (List.cons.inj h).1 (by decide)
      rw [if_neg hc, if_neg htag]
      exact unary?_unary 'C' c
  saKeyPem_injective := Rcgen.unary_lawful.saKeyPem_injective
  saPubPem_injective := Rcgen.unary_lawful.saPubPem_injective
  keyPem_ne_nil := Rcgen.unary_lawful.keyPem_ne_nil
  certPem_ne_nil (c : Cert ℕ) := by
    show (if c = briefCert then ['R'] else Pki.unary 'C' c) ≠ []
    split_ifs
    · exact List.cons_ne_nil _ _
    · exact List.cons_ne_nil _ _
  saKeyPem_ne_nil := Rcgen.unary_lawful.saKeyPem_ne_nil
  saPubPem_ne_nil := Rcgen.unary_lawful.saPubPem_ne_nil

/-- A bundle whose two CAs are the same. -/
def briefBundle : Disk :=
  Files.apply (fun _ => none)
    [(inPki "ca.key".toList, .text ['K']), (inPki "ca.crt".toList, .text ['R']),
      (inPki "front-proxy-ca.key".toList, .text ['K']), (inPki "front-proxy-ca.crt".toList, .text ['R']),
      (saKey, .text ['S']), (saPub, .text ['P'])]

theorem custody_briefBundle : Custody Rcgen.brief briefBundle := by
  have hpem : Rcgen.brief.certPem briefCert = ['R'] := by
    show (if briefCert = briefCert then ['R'] else Pki.unary 'C' briefCert) = ['R']
    rw [if_pos rfl]
  refine custody_of_matches Rcgen.brief_lawful ⟨(0 : ℕ), briefCert, rfl, ?_, rfl⟩
    ⟨(0 : ℕ), briefCert, rfl, ?_, rfl⟩ ⟨(0 : ℕ), rfl, rfl⟩
  · rw [hpem]
    rfl
  · rw [hpem]
    rfl

/-- Two servers: one gets the whole bundle and runs, the other gets the first 700 bytes only, has
    its `tar` killed the next time, and is started once more. -/
theorem trust_shared_brief :
    let cfg := { Cfg.sample with requireShippedCa := true }
    let gen : Gen Rcgen.brief := ⟨(0 : ℕ), 0, Clock.zero, Clock.zero⟩
    let x : ServerInput Rcgen.brief := ⟨"10.0.0.1".toList, ⟨gen, gen, (0 : ℕ)⟩, fun _ => Clock.zero,
      fun _ => gen⟩
    ∃ stream D, ((serve "ca-bundle".toList "10.0.0.1:10123".toList).run briefBundle).1 = .ok stream ∧
      exec (meshStep untarBlocks stream) (fun _ _ => none)
        [((0 : Fin 2), .fetch 100000 none), (1, .fetch 700 none), (0, .run cfg x 40),
          (1, .run cfg x 40), (1, .fetch 100000 (some 512)), (1, .fetch 100000 none)] = some D ∧
      ∀ name c, LeafName name → D 0 (crtFile name) = some c →
        (∀ f ∈ CUSTODY_FILES, isNonEmpty (D 1 (inPki f)) = true) →
          Verifies Rcgen.brief (D 1) (rootOf name) c := by
  intro cfg gen x
  have hfiles : ∀ f ∈ CUSTODY_FILES, briefBundle (inPki f) =
      some ((briefBundle (inPki f)).getD (.text [])) := by
    simp only [CUSTODY_FILES, List.forall_mem_cons, List.not_mem_nil, false_implies, implies_true,
      and_true]
    exact ⟨rfl, rfl, rfl, rfl, rfl, rfl⟩
  obtain ⟨stream, hserve⟩ : ∃ stream, ((serve "ca-bundle".toList "10.0.0.1:10123".toList).run
      briefBundle).1 = .ok stream :=
    serve_ok (by decide) (by decide) hfiles (by decide) (by decide)
  obtain ⟨D, hexec⟩ : ∃ D, exec (meshStep untarBlocks stream) (fun _ _ => none)
      [((0 : Fin 2), .fetch 100000 none), (1, .fetch 700 none), (0, .run cfg x 40),
        (1, .run cfg x 40), (1, .fetch 100000 (some 512)), (1, .fetch 100000 none)] = some D :=
    ⟨_, rfl⟩
  refine ⟨stream, D, hserve, hexec, fun name c hname hc hall => ?_⟩
  exact (trust_shared Rcgen.brief_lawful lawful_untarBlocks custody_briefBundle hserve hexec 0).2.1 name c hname hc 1 hall

end Kubenyx.Pki
