import Kubenyx.Common.Base64
import Kubenyx.Pki.Shared

/-!
# Kubeconfigs

Model of `write_kubeconfig` (lib.rs:407-441). A kubeconfig embeds the CA certificate,
a client certificate and its key, each in Base64. The file is left alone if it has the
line of the server and the two certificates somewhere in its text.

* `render_inj`: what a kubeconfig embeds can be read back from it.
* `Material.encodePem_infix_iff`, `Material.serverLine_infix_iff`: where a PEM and the line of
  a server are found in a kubeconfig, and with that when it is left alone
  (`Material.current_iff`).
* `Material.shows_iff_of_pem`: for PEMs in ASCII these places are whole groups of three bytes.
* `writeKubeconfig_spec`: what a run writes, read off the directory before it.
* `current_render`: a kubeconfig that was just written is left alone.
-/

namespace Kubenyx.Pki

open Kubenyx.Common

/-! ## The program -/

/-- `kc.join(out)`. -/
def inKubeconfigs (out : Text) : File := ⟨.kubeconfigs, out⟩

theorem inKubeconfigs_ne_inPki (out path : Text) : inKubeconfigs out ≠ inPki path :=
  fun h => Dir.noConfusion (File.mk.inj h).1

/-- `dir.join(path).display()`. -/
def joinPath (dir path : Text) : Text :=
  if dir = [] ∨ dir.getLast? = some '/' then dir ++ path else dir ++ "/".toList ++ path

/-- `B64.encode(pem.as_bytes())`. -/
def encodePem (pem : Text) : Text := base64 (utf8 pem)

/-- The text of a kubeconfig (lib.rs:431-439). -/
def render (apiUrl user ca crt key : Text) : Text :=
  "apiVersion: v1\nkind: Config\nclusters:\n- name: kubenyx\n  cluster:\n    certificate-authority-data: ".toList ++
    encodePem ca ++ "\n    server: ".toList ++ apiUrl ++ "\nusers:\n- name: ".toList ++ user ++
    "\n  user:\n    client-certificate-data: ".toList ++ encodePem crt ++
    "\n    client-key-data: ".toList ++ encodePem key ++
    "\ncontexts:\n- name: default\n  context:\n    cluster: kubenyx\n    user: ".toList ++ user ++
    "\ncurrent-context: default\n".toList

/-- The line of the server. -/
def serverLine (apiUrl : Text) : Text := "server: ".toList ++ apiUrl ++ "\n".toList

/-- The test that leaves a kubeconfig alone (lib.rs:423-427). -/
def kubeconfigCurrent (apiUrl ca crt : Text) : Except IoError Text → Bool
  | .ok body => serverLine apiUrl <:+: body && encodePem crt <:+: body && encodePem ca <:+: body
  | .error _ => false

/-- The parameters of `write_kubeconfig` that tell the kubeconfigs apart: the file, the
    user, and the paths of the certificate and the key. -/
structure Kubeconfig where
  out : Text
  user : Text
  crt : Text
  key : Text
  deriving DecidableEq, Repr

/-- `write_kubeconfig` (lib.rs:407-441). -/
def writeKubeconfig (pki apiUrl caPem : Text) (k : Kubeconfig) : Prog Unit := do
  match ← readToString (inPki k.crt) with
  | .error e => die ("read ".toList ++ joinPath pki k.crt ++ ": ".toList ++ e.display)
  | .ok crtPem =>
    match ← readToString (inPki k.key) with
    | .error e => die ("read ".toList ++ joinPath pki k.key ++ ": ".toList ++ e.display)
    | .ok keyPem =>
      let body ← readToString (inKubeconfigs k.out)
      if kubeconfigCurrent apiUrl caPem crtPem body then return
      writePrivate (inKubeconfigs k.out) (render apiUrl k.user caPem crtPem keyPem)

/-! ## What a kubeconfig embeds -/

theorem encodePem_injective : Function.Injective encodePem :=
  base64_injective.comp utf8_injective

theorem space_notMem_encodePem (pem : Text) : ' ' ∉ encodePem pem :=
  fun h => (base64_ne_space h).1 rfl

theorem newline_notMem_encodePem (pem : Text) : '\n' ∉ encodePem pem :=
  fun h => (base64_ne_space h).2 rfl

/-- A value at the end of a text, after a blank. -/
theorem encodePem_inj_of_back {l l' s pem pem' : Text}
    (h : l ++ (s ++ [' ']) ++ encodePem pem = l' ++ (s ++ [' ']) ++ encodePem pem') :
    l = l' ∧ pem = pem' := by
  have hsplit : ∀ l pem : Text,
      l ++ (s ++ [' ']) ++ encodePem pem = l ++ s ++ ' ' :: encodePem pem := by simp
  rw [hsplit, hsplit] at h
  obtain ⟨hl, hpem⟩ := append_cons_inj_right (space_notMem_encodePem pem)
    (space_notMem_encodePem pem') h
  exact ⟨List.append_cancel_right hl, encodePem_injective hpem⟩

/-- A value near the front of a text, up to its line break. -/
theorem encodePem_inj_of_front {s r r' pem pem' : Text}
    (h : s ++ encodePem pem ++ '\n' :: r = s ++ encodePem pem' ++ '\n' :: r') : pem = pem' := by
  rw [List.append_assoc, List.append_assoc] at h
  obtain ⟨hpem, -⟩ := append_cons_inj (newline_notMem_encodePem pem) (newline_notMem_encodePem pem')
    (List.append_cancel_left h)
  exact encodePem_injective hpem

/-- What a kubeconfig embeds. The key and the certificate are read from the back, the
    CA from the front. -/
theorem render_inj {url url' user ca ca' crt crt' key key' : Text}
    (h : render url user ca crt key = render url' user ca' crt' key') :
    ca = ca' ∧ crt = crt' ∧ key = key' := by
  unfold render at h
  have hback := List.append_cancel_right (List.append_cancel_right (List.append_cancel_right h))
  obtain ⟨hkey, hkeys⟩ := encodePem_inj_of_back (s := "\n    client-key-data:".toList) hback
  obtain ⟨hcrt, hcrts⟩ :=
    encodePem_inj_of_back (s := "\n  user:\n    client-certificate-data:".toList) hkey
  have hfront := List.append_cancel_right (List.append_cancel_right hcrt)
  rw [List.append_assoc, List.append_assoc (_ ++ encodePem ca')] at hfront
  exact ⟨encodePem_inj_of_front hfront, hcrts, hkeys⟩

theorem serverLine_infix (l apiUrl : Text) :
    serverLine apiUrl <:+: l ++ "\n    server: ".toList ++ apiUrl ++ "\nusers:\n- name: ".toList := by
  refine ⟨l ++ "\n    ".toList, "users:\n- name: ".toList, ?_⟩
  unfold serverLine
  have hl : "\n    server: ".toList = "\n    ".toList ++ "server: ".toList := rfl
  have hr : "\nusers:\n- name: ".toList = "\n".toList ++ "users:\n- name: ".toList := rfl
  rw [hl, hr]
  generalize "\n    ".toList = a, "server: ".toList = b, "\n".toList = c, "users:\n- name: ".toList = e
  simp only [List.append_assoc]

/-- A kubeconfig passes the test for the server, the CA and the certificate that it was
    rendered with. -/
theorem current_render (apiUrl user ca crt key : Text) :
    kubeconfigCurrent apiUrl ca crt (.ok (render apiUrl user ca crt key)) = true := by
  have hurl : serverLine apiUrl <:+: render apiUrl user ca crt key := by
    unfold render
    iterate 8 apply List.infix_append_of_infix_left
    exact serverLine_infix _ apiUrl
  have hcrt : encodePem crt <:+: render apiUrl user ca crt key := by
    unfold render
    iterate 5 apply List.infix_append_of_infix_left
    exact List.infix_append_right
  have hca : encodePem ca <:+: render apiUrl user ca crt key := by
    unfold render
    iterate 11 apply List.infix_append_of_infix_left
    exact List.infix_append_right
  generalize render apiUrl user ca crt key = body at hurl hcrt hca
  unfold kubeconfigCurrent
  simp only [Bool.and_eq_true, decide_eq_true_eq]
  exact ⟨⟨hurl, hcrt⟩, hca⟩

/-! ## What is found in a kubeconfig -/

/-- What a kubeconfig is rendered with, beside the user. -/
structure Material where
  url : Text
  ca : Text
  crt : Text
  key : Text

/-- The kubeconfig that is rendered with it. -/
def Material.body (m : Material) (user : Text) : Text := render m.url user m.ca m.crt m.key

/-- The line of a server is found in the kubeconfig: in its own line of the server, or in the
    user; or, if there is a newline in the URL, across its lines. -/
def Material.Serves (m : Material) (user apiUrl : Text) : Prop :=
  serverLine apiUrl <:+: serverLine m.url ∨ serverLine apiUrl <:+: user ++ ['\n'] ∨
    '\n' ∈ apiUrl ∧ serverLine apiUrl <:+: m.body user

/-- The parts of the template between the values. -/
def TEMPLATE : List Text :=
  ["apiVersion: v1\nkind: Config\nclusters:\n- name: kubenyx\n  cluster:\n    certificate-authority-data:".toList,
    "    server:".toList, "users:\n- name:".toList, "  user:\n    client-certificate-data:".toList,
    "    client-key-data:".toList,
    "contexts:\n- name: default\n  context:\n    cluster: kubenyx\n    user:".toList,
    "current-context: default\n".toList]

/-- The Base64 of a PEM is found in the kubeconfig: the PEM is within the CA, the certificate or
    the key, or the URL, the user or the template spells its Base64 out. -/
def Material.Shows (m : Material) (user pem : Text) : Prop :=
  (∃ t ∈ [m.ca, m.crt, m.key], Within (utf8 pem) (utf8 t)) ∨
    ∃ t ∈ m.url :: user :: TEMPLATE, encodePem pem <:+: t

/-- A kubeconfig, cut before and behind each value. -/
theorem render_eq (url user ca crt key : Text) :
    render url user ca crt key =
      "apiVersion: v1\nkind: Config\nclusters:\n- name: kubenyx\n  cluster:\n    certificate-authority-data:".toList ++
        ' ' :: (encodePem ca ++ '\n' :: ("    server:".toList ++ ' ' :: (url ++ '\n' ::
        ("users:\n- name:".toList ++ ' ' :: (user ++ '\n' ::
        ("  user:\n    client-certificate-data:".toList ++ ' ' :: (encodePem crt ++ '\n' ::
        ("    client-key-data:".toList ++ ' ' :: (encodePem key ++ '\n' ::
        ("contexts:\n- name: default\n  context:\n    cluster: kubenyx\n    user:".toList ++
          ' ' :: (user ++ '\n' :: "current-context: default\n".toList))))))))))) := by
  have hcons : ∀ (a : Text) (b : Char) (t : Text), a ++ b :: t = a ++ ([b] ++ t) := fun _ _ _ => rfl
  have hca : "apiVersion: v1\nkind: Config\nclusters:\n- name: kubenyx\n  cluster:\n    certificate-authority-data: ".toList =
      "apiVersion: v1\nkind: Config\nclusters:\n- name: kubenyx\n  cluster:\n    certificate-authority-data:".toList ++ [' '] := by simp
  have hserver : "\n    server: ".toList = ['\n'] ++ ("    server:".toList ++ [' ']) := by simp
  have husers : "\nusers:\n- name: ".toList = ['\n'] ++ ("users:\n- name:".toList ++ [' ']) := by simp
  have hcrt : "\n  user:\n    client-certificate-data: ".toList =
      ['\n'] ++ ("  user:\n    client-certificate-data:".toList ++ [' ']) := by simp
  have hkey : "\n    client-key-data: ".toList = ['\n'] ++ ("    client-key-data:".toList ++ [' ']) := by simp
  have hcontexts : "\ncontexts:\n- name: default\n  context:\n    cluster: kubenyx\n    user: ".toList =
      ['\n'] ++ ("contexts:\n- name: default\n  context:\n    cluster: kubenyx\n    user:".toList ++ [' ']) := by simp
  have hlast : "\ncurrent-context: default\n".toList =
      ['\n'] ++ "current-context: default\n".toList := by simp
  unfold render
  rw [hca, hserver, husers, hcrt, hkey, hcontexts, hlast]
  simp only [hcons, List.append_assoc, List.nil_append]

section found

variable {pem apiUrl : Text}

/-- Where the Base64 of a PEM is found in a kubeconfig. -/
theorem Material.encodePem_infix_iff (m : Material) (user pem : Text) :
    encodePem pem <:+: m.body user ↔ m.Shows user pem := by
  have hspace : ∀ {a b : Text}, encodePem pem <:+: a ++ ' ' :: b ↔
      encodePem pem <:+: a ∨ encodePem pem <:+: b :=
    infix_append_cons_iff (space_notMem_encodePem pem)
  have hline : ∀ {a b : Text}, encodePem pem <:+: a ++ '\n' :: b ↔
      encodePem pem <:+: a ∨ encodePem pem <:+: b :=
    infix_append_cons_iff (newline_notMem_encodePem pem)
  have hvalue : ∀ t : Text, encodePem pem <:+: encodePem t ↔ Within (utf8 pem) (utf8 t) :=
    fun t => base64_infix_iff
  unfold Material.body Material.Shows TEMPLATE
  rw [render_eq]
  simp only [hspace, hline, hvalue, List.exists_mem_cons_iff, List.not_mem_nil, false_and,
    exists_false, or_false]
  grind only

/-- A PEM is found where it is a part of the CA, the certificate or the key that begins at a
    multiple of three bytes, and ends at one or at the end; provided these are ASCII. -/
theorem Material.shows_iff_of_pem (m : Material) (user : Text) (hpem : "-----BEGIN ".toList <+: pem)
    (hascii : ∀ t ∈ [m.ca, m.crt, m.key], ∀ b ∈ utf8 t, b.toNat < 128) :
    m.Shows user pem ↔
      (∃ t ∈ [m.ca, m.crt, m.key], ∃ a b, utf8 t = a ++ utf8 pem ++ b ∧ 3 ∣ a.length ∧
        (3 ∣ (utf8 pem).length ∨ b = [])) ∨
      encodePem pem <:+: m.url ∨ encodePem pem <:+: user := by
  have hutf8 : pemStart <+: utf8 pem := by
    obtain ⟨r, rfl⟩ := hpem
    rw [utf8_append]
    exact List.prefix_append _ _
  have htemplate : ¬ ∃ t ∈ TEMPLATE, encodePem pem <:+: t := by
    rintro ⟨t, ht, hinfix⟩
    have hdashes : "LS0t".toList <+: encodePem pem := by
      obtain ⟨r, rfl⟩ := hpem
      have hsplit : "-----BEGIN ".toList ++ r = "---".toList ++ ("--BEGIN ".toList ++ r) := rfl
      unfold encodePem
      rw [hsplit, utf8_append, base64_append (by decide)]
      exact List.prefix_append _ _
    have hnone : ∀ t ∈ TEMPLATE, ¬ "LS0t".toList <:+: t := by decide +kernel
    exact hnone t ht (hdashes.isInfix.trans hinfix)
  have hspelt : (∃ t ∈ m.url :: user :: TEMPLATE, encodePem pem <:+: t) ↔
      encodePem pem <:+: m.url ∨ encodePem pem <:+: user := by
    rw [List.exists_mem_cons_iff, List.exists_mem_cons_iff, or_iff_left htemplate]
  unfold Material.Shows
  rw [hspelt]
  refine or_congr_left (exists_congr fun t => and_congr_right fun ht => ?_)
  exact within_iff_of_pem hutf8 (hascii t ht)

/-! The line of a server, in the parts of a kubeconfig. -/

theorem serverLine_infix_apart {t b : Text} {c : Char} (h : Apart "server: ".toList (t ++ [c])) :
    serverLine apiUrl <:+: t ++ c :: b ↔ serverLine apiUrl <:+: b := by
  unfold serverLine
  rw [List.append_assoc, List.append_cons, infix_append_iff_of_apart h]

theorem serverLine_infix_line (h : '\n' ∉ apiUrl) {a b : Text} :
    serverLine apiUrl <:+: a ++ '\n' :: b ↔
      serverLine apiUrl <:+: a ++ ['\n'] ∨ serverLine apiUrl <:+: b := by
  refine infix_append_cons_iff_of_last fun hmem => ?_
  exact (List.mem_append.mp hmem).elim (by decide) h

theorem not_serverLine_infix_pem (apiUrl pem : Text) :
    ¬ serverLine apiUrl <:+: encodePem pem ++ ['\n'] := by
  intro h
  have hspace : ' ' ∈ serverLine apiUrl := by
    unfold serverLine
    rw [List.append_assoc]
    exact List.mem_append_left _ (by decide)
  rcases List.mem_append.mp (h.subset hspace) with hmem | hmem
  · exact space_notMem_encodePem pem hmem
  · exact absurd hmem (by decide)

/-- Where the line of a server is found in a kubeconfig, if it is one line. -/
theorem Material.serverLine_infix_line_iff (m : Material) (user : Text) (h : '\n' ∉ apiUrl) :
    serverLine apiUrl <:+: m.body user ↔
      serverLine apiUrl <:+: serverLine m.url ∨ serverLine apiUrl <:+: user ++ ['\n'] := by
  have hline := @serverLine_infix_line apiUrl h
  have hpem := not_serverLine_infix_pem apiUrl
  have hvalue : ∀ {t pem b : Text}, Apart "server: ".toList (t ++ [' ']) →
      (serverLine apiUrl <:+: t ++ ' ' :: (encodePem pem ++ '\n' :: b) ↔
        serverLine apiUrl <:+: b) := fun h => by
    rw [serverLine_infix_apart h, hline, or_iff_right (hpem _)]
  have huser : ∀ {t b : Text}, Apart "server: ".toList (t ++ [' ']) →
      (serverLine apiUrl <:+: t ++ ' ' :: (user ++ '\n' :: b) ↔
        serverLine apiUrl <:+: user ++ ['\n'] ∨ serverLine apiUrl <:+: b) := fun h => by
    rw [serverLine_infix_apart h, hline]
  have hserver : ∀ {b : Text},
      serverLine apiUrl <:+: "    server:".toList ++ ' ' :: (m.url ++ '\n' :: b) ↔
        serverLine apiUrl <:+: serverLine m.url ∨ serverLine apiUrl <:+: b := fun {b} => by
    have hsplit : "    server:".toList ++ ' ' :: (m.url ++ '\n' :: b) =
        "   ".toList ++ ' ' :: ("server: ".toList ++ m.url ++ '\n' :: b) := by
      rw [List.append_assoc]
      rfl
    rw [hsplit, serverLine_infix_apart (by decide), hline]
    rfl
  have hlast : ¬ serverLine apiUrl <:+: "current-context: default\n".toList := by
    intro hinfix
    have hstart : "server: ".toList <:+: serverLine apiUrl := by
      unfold serverLine
      rw [List.append_assoc]
      exact (List.prefix_append _ _).isInfix
    exact absurd (hstart.trans hinfix) (by decide)
  unfold Material.body
  rw [render_eq, hvalue (by decide), hserver, huser (by decide), hvalue (by decide),
    hvalue (by decide), huser (by decide), or_iff_left hlast, or_self]

/-- The line of the server and that of the user are in the kubeconfig. -/
theorem Material.lines_infix (m : Material) (user : Text) :
    serverLine m.url <:+: m.body user ∧ user ++ ['\n'] <:+: m.body user := by
  have hcons : ∀ {t a b : Text} {c : Char}, t <:+: b → t <:+: a ++ c :: b := fun {_ a b c} h =>
    (h.trans (List.suffix_cons c b).isInfix).trans (List.suffix_append a _).isInfix
  have hserver : ∀ b : Text, serverLine m.url <:+: "    server:".toList ++ ' ' :: (m.url ++ '\n' :: b) := by
    intro b
    refine ⟨"    ".toList, b, ?_⟩
    unfold serverLine
    rw [List.append_assoc, List.append_assoc, List.append_assoc]
    rfl
  unfold Material.body
  rw [render_eq]
  refine ⟨hcons (hcons (hserver _)), hcons (hcons (hcons (hcons (hcons ?_))))⟩
  exact ⟨[], _, (List.append_cons user '\n' _).symm⟩

/-- Where the line of a server is found in a kubeconfig. -/
theorem Material.serverLine_infix_iff (m : Material) (user apiUrl : Text) :
    serverLine apiUrl <:+: m.body user ↔ m.Serves user apiUrl := by
  unfold Material.Serves
  by_cases h : '\n' ∈ apiUrl
  · rw [and_iff_right h]
    obtain ⟨hserver, huser⟩ := m.lines_infix user
    refine ⟨fun hbody => Or.inr (Or.inr hbody), ?_⟩
    rintro (hline | hline | hbody)
    · exact hline.trans hserver
    · exact hline.trans huser
    · exact hbody
  · rw [m.serverLine_infix_line_iff user h, iff_false_intro h, false_and, or_false]

/-- With URLs and a user that are each on one line, the line of a server is the end of one of
    them if it is not that of the URL itself. -/
theorem Material.serves_iff {m : Material} {user : Text} (h : '\n' ∉ apiUrl) (hurl : '\n' ∉ m.url)
    (huser : '\n' ∉ user) :
    m.Serves user apiUrl ↔ m.url = apiUrl ∨ "server: ".toList ++ apiUrl <:+ m.url ∨
      "server: ".toList ++ apiUrl <:+ user := by
  have hlast : ∀ {u a : Text}, '\n' ∉ a → (u ++ ['\n'] <:+: a ++ ['\n'] ↔ u <:+ a) := by
    intro u a ha
    refine ⟨fun ⟨p, q, h⟩ => ?_, fun ⟨p, h⟩ => ⟨p, [], by rw [← h]; simp⟩⟩
    rcases List.eq_nil_or_concat q with rfl | ⟨q, x, rfl⟩
    · rw [List.append_nil, ← List.append_assoc] at h
      exact ⟨p, List.append_cancel_right h⟩
    · rw [List.concat_eq_append, ← List.append_assoc] at h
      refine absurd ?_ ha
      rw [← (List.append_inj' h rfl).1]
      simp
  have hstart : ∀ {t : Text}, "server: ".toList ++ apiUrl <:+ "server: ".toList ++ t ↔
      t = apiUrl ∨ "server: ".toList ++ apiUrl <:+ t := by
    intro t
    have hcons : ∀ t : Text, "server: ".toList ++ t = 's' :: ("erver: ".toList ++ t) := fun _ => rfl
    rw [hcons, hcons, List.suffix_cons_iff, suffix_append_iff (by decide), List.cons_inj_right,
      List.append_right_inj, eq_comm]
  have hnewline : '\n' ∉ "server: ".toList ++ m.url := fun hmem =>
    (List.mem_append.mp hmem).elim (by decide) hurl
  unfold Material.Serves serverLine
  rw [iff_false_intro h, false_and, or_false]
  exact (or_congr (hlast hnewline) (hlast huser)).trans (by rw [hstart, or_assoc])

/-- When a kubeconfig is left alone. -/
theorem Material.current_iff (m : Material) (user apiUrl ca crt : Text) :
    kubeconfigCurrent apiUrl ca crt (.ok (m.body user)) = true ↔
      m.Serves user apiUrl ∧ m.Shows user crt ∧ m.Shows user ca := by
  rw [← m.serverLine_infix_iff, ← m.encodePem_infix_iff, ← m.encodePem_infix_iff]
  generalize m.body user = body
  unfold kubeconfigCurrent
  simp only [Bool.and_eq_true, decide_eq_true_eq, and_assoc]

end found

/-! ## What it writes -/

variable {pki apiUrl ca crt key : Text} {k : Kubeconfig} {d : Disk}

/-- The writes of a run that reads a certificate and a key. -/
def kubeconfigWrites (apiUrl ca crt key : Text) (k : Kubeconfig) (d : Disk) :
    List (File × Content) :=
  if kubeconfigCurrent apiUrl ca crt (decodeText (d (inKubeconfigs k.out))) then []
  else [(inKubeconfigs k.out, .text (render apiUrl k.user ca crt key))]

theorem writeKubeconfig_spec (hcrt : d (inPki k.crt) = some (.text crt))
    (hkey : d (inPki k.key) = some (.text key)) :
    (writeKubeconfig pki apiUrl ca k).writes d = kubeconfigWrites apiUrl ca crt key k d ∧
      ((writeKubeconfig pki apiUrl ca k).run d).1 = .ok () := by
  unfold writeKubeconfig kubeconfigWrites
  rw [writes_readToString_bind, run_readToString_bind, hcrt, decodeText_text]
  simp only
  rw [writes_readToString_bind, run_readToString_bind, hkey, decodeText_text]
  simp only
  rw [writes_readToString_bind, run_readToString_bind]
  cases kubeconfigCurrent apiUrl ca crt (decodeText (d (inKubeconfigs k.out))) with
  | true => exact ⟨rfl, rfl⟩
  | false => exact ⟨rfl, rfl⟩

/-- A run that returns has read both files. -/
theorem texts_of_writeKubeconfig_ok (h : ((writeKubeconfig pki apiUrl ca k).run d).1 = .ok ()) :
    (∃ crt, d (inPki k.crt) = some (.text crt)) ∧ ∃ key, d (inPki k.key) = some (.text key) := by
  unfold writeKubeconfig at h
  rw [run_readToString_bind] at h
  cases hcrt : decodeText (d (inPki k.crt)) with
  | error e =>
    rw [hcrt] at h
    cases h
  | ok crt =>
    rw [hcrt] at h
    simp only at h
    rw [run_readToString_bind] at h
    cases hkey : decodeText (d (inPki k.key)) with
    | error e =>
      rw [hkey] at h
      cases h
    | ok key => exact ⟨⟨crt, decodeText_eq_ok hcrt⟩, key, decodeText_eq_ok hkey⟩

/-- What it can write, whatever it reads. -/
theorem writeKubeconfig_allWrites (pki apiUrl ca : Text) (k : Kubeconfig) :
    (writeKubeconfig pki apiUrl ca k).AllWrites fun f c =>
      f = inKubeconfigs k.out ∧ ∃ crt key, c = .text (render apiUrl k.user ca crt key) := by
  unfold writeKubeconfig
  refine (allWrites_readToString _).bind fun crt => ?_
  match crt with
  | .error _ => trivial
  | .ok crt =>
    refine (allWrites_readToString _).bind fun key => ?_
    match key with
    | .error _ => trivial
    | .ok key =>
      refine (allWrites_readToString _).bind fun body => ?_
      cases kubeconfigCurrent apiUrl ca crt body with
      | true => trivial
      | false => exact FileProg.AllWrites.writeFile ⟨rfl, crt, key, rfl⟩

end Kubenyx.Pki
