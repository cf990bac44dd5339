import Kubenyx.Net.Cidr
import Kubenyx.Snap.Api
import Kubenyx.Snap.Kubeconfig

/-!
# The admin kubeconfig on its way to the host

Model of `serve-kubeconfig` (guests/microvm.nix:562-587), which sends the admin kubeconfig of a
server with its loopback URL rewritten to the address of the node, and of `http_get_body` and
`quorum_client` (kubenyx-snap lib.rs:272-289, 305-344), which fetch it and take the credentials
and the endpoint out of it. The reply has no length: it ends where the connection does.

* `Rendering.sedText_body`: the rewriting changes the URL of a rendered kubeconfig and nothing
  else.
* `Rendering.quorumClient_of_cut`: what a kubeconfig that is cut off can be taken for.
* `kubeconfig_handoff`: the host reads what the server has written, however the reply arrives,
  and nothing from a connection that breaks.
-/

namespace Kubenyx.Snap

open Kubenyx.Common
open Kubenyx.Net (hostPort)
open Kubenyx.Pki (encodePem newline_notMem_encodePem)

/-! ## The guest -/

/-- A basic regular expression of letters, digits and dots at the start of a text. -/
def startsLike : Text → Text → Bool
  | [], _ => true
  | _ :: _, [] => false
  | p :: ps, c :: cs => (p = '.' || p = c) && startsLike ps cs

/-- The command `s` of sed on a line: the first match is replaced. -/
def sedLine (pat rep : Text) : Text → Text
  | [] => []
  | c :: cs =>
    if startsLike pat (c :: cs) then rep ++ (c :: cs).drop pat.length else c :: sedLine pat rep cs

/-- The command on all lines of a file. -/
def sedText (pat rep t : Text) : Text := joined '\n' ((t.splitOn '\n').map (sedLine pat rep))

/-- The URL of a server's own apiserver (modules/default.nix:219). -/
def loopbackUrl : Text := "https://127.0.0.1:6443".toList

/-- The URL that the host reaches it by. -/
def nodeUrl (address : Text) : Text := "https://".toList ++ hostPort address 6443

/-- The head of the reply. -/
def handoffHead : Text :=
  "HTTP/1.0 200 OK\r\nContent-Type: application/yaml\r\nConnection: close".toList

/-- `serve-kubeconfig`, on the content of `admin.kubeconfig`. -/
def serveKubeconfig (address kubeconfig : Text) : Text :=
  handoffHead ++ ("\r\n\r\n".toList ++ sedText loopbackUrl (nodeUrl address) kubeconfig)

/-! ## The host -/

/-- `read_to_end`; `none` if a read fails, or times out. -/
def readToEnd (raw : List UInt8) : List Read → Option (List UInt8)
  | [] => none
  | .error _ :: _ => none
  | .ok [] :: _ => some raw
  | .ok (b :: bs) :: reads => readToEnd (raw ++ b :: bs) reads

/-- `split_once` at a text. -/
def splitOnceAt (sep t : Text) : Option (Text × Text) :=
  (position sep t).map fun p => (t.take p, t.drop (p + sep.length))

/-- The request (lib.rs:278). -/
def getRequest (addr : Text) : Text :=
  "GET / HTTP/1.0\r\nHost: ".toList ++ addr ++ "\r\nConnection: close\r\n\r\n".toList

/-- `http_get_body` (lib.rs:272-289), on an address that parses. -/
def httpGetBody (s : Socket) (addr : Text) : Option Text := do
  s.connect.toOption
  (s.write (utf8 (getRequest addr))).toOption
  let raw ← readToEnd [] s.reads
  let (headers, body) ← splitOnceAt "\r\n\r\n".toList (fromUtf8Lossy raw)
  let code ← (splitWhitespace headers)[1]?
  if code.head? = some '2' then some body else none

/-- What `quorum_client` dies of. -/
inductive ClientError where
  /-- `kubeconfig has no {k}` -/
  | missing (key : Text)
  /-- `kubeconfig {k}: bad base64` -/
  | badBase64 (key : Text)
  /-- `kubeconfig server URL not https: {url}` -/
  | notHttps (url : Text)
  deriving DecidableEq

/-- What `quorum_client` makes the TLS configuration of, with the host and the endpoint. -/
structure QuorumClient where
  ca : List UInt8
  crt : List UInt8
  key : List UInt8
  host : Text
  addr : Text
  deriving DecidableEq

/-- `field` (lib.rs:307-308). -/
def clientField (kc key : Text) : Except ClientError Text :=
  match kubeconfigValue kc key with
  | some v => .ok v
  | none => .error (.missing key)

/-- `pem` (lib.rs:309-313). -/
def clientPem (kc key : Text) : Except ClientError (List UInt8) := do
  match decodeBase64 (← clientField kc key) with
  | some bytes => .ok bytes
  | none => .error (.badBase64 key)

/-- `quorum_client` (lib.rs:305-344), up to what rustls makes of the PEM texts. -/
def quorumClient (kc : Text) : Except ClientError QuorumClient := do
  let ca ← clientPem kc "certificate-authority-data".toList
  let crt ← clientPem kc "client-certificate-data".toList
  let key ← clientPem kc "client-key-data".toList
  let url ← clientField kc "server".toList
  match stripPrefix "https://".toList url with
  | some hostport => return ⟨ca, crt, key, (hostport.splitOn ':').headD [], hostport⟩
  | none => throw (.notHttps url)

/-! ## Rewriting the URL -/

/-- No colon is followed by a slash. -/
def NoAuthority (t : Text) : Prop := t.IsChain fun a b => ¬ (a = ':' ∧ b = '/')

instance decidableNoAuthority (t : Text) : Decidable (NoAuthority t) :=
  inferInstanceAs (Decidable (t.IsChain _))

theorem noAuthority_append {l v : Text} (hl : NoAuthority l) (hlast : l.getLast? ≠ some ':')
    (hv : ':' ∉ v) : NoAuthority (l ++ v) := by
  refine List.isChain_append.mpr ⟨hl, List.Pairwise.isChain ?_, fun x hx y _ hauth => ?_⟩
  · exact List.pairwise_of_forall_mem_list fun a ha b _ hauth => hv (hauth.1 ▸ ha)
  · exact hlast (hauth.1 ▸ hx)

/-- What matches has the characters of the expression other than its dots. -/
theorem getElem?_of_startsLike {pat t : Text} (h : startsLike pat t = true) {i : ℕ} {p : Char}
    (hp : pat[i]? = some p) (hdot : p ≠ '.') : t[i]? = some p := by
  induction pat generalizing t i with
  | nil => cases hp
  | cons q pat ih =>
    cases t with
    | nil => cases h
    | cons c t =>
      rw [startsLike, Bool.and_eq_true, Bool.or_eq_true, decide_eq_true_eq, decide_eq_true_eq] at h
      cases i with
      | zero =>
        obtain rfl : q = p := Option.some.inj hp
        rw [h.1.resolve_left hdot]
        rfl
      | succ i => exact ih h.2 hp

/-- The URL matches nowhere without its colon and slashes. -/
theorem startsLike_of_noAuthority {t : Text} (h : NoAuthority t) :
    startsLike loopbackUrl t = false := by
  refine Bool.eq_false_iff.mpr fun hmatch => ?_
  obtain ⟨hcolonLt, hcolon⟩ := List.getElem?_eq_some_iff.mp
    (getElem?_of_startsLike hmatch (show loopbackUrl[5]? = some ':' from rfl) (by decide))
  obtain ⟨hslashLt, hslash⟩ := List.getElem?_eq_some_iff.mp
    (getElem?_of_startsLike hmatch (show loopbackUrl[6]? = some '/' from rfl) (by decide))
  exact List.isChain_iff_getElem.mp h 5 hslashLt ⟨hcolon, hslash⟩

theorem sedLine_of_noAuthority {t rep : Text} (h : NoAuthority t) :
    sedLine loopbackUrl rep t = t := by
  induction t with
  | nil => rfl
  | cons c t ih =>
    rw [sedLine, startsLike_of_noAuthority h, if_neg Bool.false_ne_true, ih h.tail]

/-- What does not have the first character of the expression is skipped. -/
theorem sedLine_append_of_notMem {p : Char} {ps rep l t : Text} (hdot : p ≠ '.') (h : p ∉ l) :
    sedLine (p :: ps) rep (l ++ t) = l ++ sedLine (p :: ps) rep t := by
  induction l with
  | nil => rfl
  | cons c l ih =>
    rw [List.mem_cons, not_or] at h
    have hmatch : startsLike (p :: ps) (c :: (l ++ t)) = false := by
      rw [startsLike, decide_eq_false hdot, decide_eq_false h.1]
      rfl
    rw [List.cons_append, sedLine, hmatch, if_neg Bool.false_ne_true, ih h.2, List.cons_append]

theorem startsLike_self (t : Text) : startsLike t t = true := by
  induction t with
  | nil => rfl
  | cons c t ih => rw [startsLike, ih, Bool.and_true, decide_eq_true (rfl : c = c), Bool.or_true]

theorem sedLine_self {pat : Text} (h : pat ≠ []) (rep : Text) : sedLine pat rep pat = rep := by
  cases pat with
  | nil => exact absurd rfl h
  | cons p pat => rw [sedLine, if_pos (startsLike_self _), List.drop_length, List.append_nil]

theorem colon_notMem_encodePem (pem : Text) : ':' ∉ encodePem pem := fun hmem =>
  forall_mem_encodePem (P := (· ≠ ':')) (by decide) (by decide) pem _ hmem rfl

theorem ascii_encodePem (pem : Text) : ∀ c ∈ encodePem pem, c.toNat < 128 :=
  forall_mem_encodePem (by decide) (by decide) pem

/-- The kubeconfig with another URL. -/
def Rendering.withUrl (r : Rendering) (url : Text) (h : Recordable url) : Rendering :=
  { r with url := url, url_recordable := h }

/-- The expression matches in the line of the server alone. -/
theorem Rendering.map_sedLine_lines (r : Rendering) (hurl : r.url = loopbackUrl)
    (huser : ':' ∉ r.user) {url : Text} (h : Recordable url) :
    r.lines.map (sedLine loopbackUrl url) = (r.withUrl url h).lines := by
  have hline : ∀ {l v : Text}, NoAuthority l → l.getLast? ≠ some ':' → ':' ∉ v →
      sedLine loopbackUrl url (l ++ v) = l ++ v := fun hl hlast hv =>
    sedLine_of_noAuthority (noAuthority_append hl hlast hv)
  have hserver : sedLine loopbackUrl url ("    server: ".toList ++ loopbackUrl) =
      "    server: ".toList ++ url := by
    unfold loopbackUrl
    exact (sedLine_append_of_notMem (by decide) (by decide)).trans
      (congrArg _ (sedLine_self (by decide) url))
  unfold Rendering.lines
  rw [hurl]
  simp only [List.map_cons, List.map_nil]
  rw [hserver, hline (by decide) (by decide) (colon_notMem_encodePem r.ca),
    hline (by decide) (by decide) (colon_notMem_encodePem r.crt),
    hline (by decide) (by decide) (colon_notMem_encodePem r.key),
    hline (l := "- name: ".toList) (by decide) (by decide) huser,
    hline (l := "    user: ".toList) (by decide) (by decide) huser]
  iterate 12 rw [sedLine_of_noAuthority (by decide)]
  rfl

theorem flatMap_newline (ls : List Text) :
    ls.flatMap (· ++ ['\n']) = joined '\n' (ls ++ [[]]) := by
  induction ls with
  | nil => rfl
  | cons l ls ih =>
    have hne : ls ++ [[]] ≠ [] := List.append_ne_nil_of_right_ne_nil _ (List.cons_ne_nil _ _)
    show l ++ ['\n'] ++ ls.flatMap (· ++ ['\n']) = joined '\n' ([l] ++ (ls ++ [[]]))
    have hsingle : joined '\n' [l] = l := List.append_nil l
    rw [ih, joined_append (List.cons_ne_nil _ _) hne, hsingle, List.append_assoc]
    rfl

/-- Lines that a command keeps on a line each are those that it makes of them. -/
theorem sedText_flatMap {pat rep : Text} {ls : List Text} (h : ∀ l ∈ ls, '\n' ∉ l) :
    sedText pat rep (ls.flatMap (· ++ ['\n'])) =
      (ls.map (sedLine pat rep)).flatMap (· ++ ['\n']) := by
  have hlines : (joined '\n' (ls ++ [[]])).splitOn '\n' = ls ++ [[]] := by
    refine List.splitOn_intercalate '\n' ?_ (List.append_ne_nil_of_right_ne_nil _
      (List.cons_ne_nil _ _))
    exact List.forall_mem_append.mpr ⟨h, List.forall_mem_singleton.mpr List.not_mem_nil⟩
  unfold sedText
  rw [flatMap_newline, flatMap_newline, hlines, List.map_append]
  rfl

/-- The rewriting changes the URL of a kubeconfig and nothing else. -/
theorem Rendering.sedText_body (r : Rendering) (hurl : r.url = loopbackUrl) (huser : ':' ∉ r.user)
    {url : Text} (h : Recordable url) :
    sedText loopbackUrl url r.body = (r.withUrl url h).body := by
  rw [r.body_eq, sedText_flatMap r.newline_notMem, r.map_sedLine_lines hurl huser h,
    (r.withUrl url h).body_eq]

/-! ## The reply -/

/-- `read_to_end` collects the pieces that arrive before any other read. -/
theorem readToEnd_append {pieces : List (List UInt8)} (h : ∀ piece ∈ pieces, piece ≠ [])
    (raw : List UInt8) (reads : List Read) :
    readToEnd raw (pieces.map .ok ++ reads) = readToEnd (raw ++ pieces.flatten) reads := by
  induction pieces generalizing raw with
  | nil => rw [List.flatten_nil, List.append_nil]; rfl
  | cons piece pieces ih =>
    obtain ⟨hpiece, hpieces⟩ := List.forall_mem_cons.mp h
    obtain ⟨b, bs, rfl⟩ := List.exists_cons_of_ne_nil hpiece
    rw [List.map_cons, List.cons_append, readToEnd, ih hpieces, List.append_assoc,
      List.flatten_cons]

/-- At the end of the connection it has all of them. -/
theorem readToEnd_pieces {pieces : List (List UInt8)} (h : ∀ piece ∈ pieces, piece ≠ [])
    (later : List Read) :
    readToEnd [] (pieces.map .ok ++ .ok [] :: later) = some pieces.flatten := by
  rw [readToEnd_append h, List.nil_append]
  rfl

theorem position_handoffHead :
    position "\r\n\r\n".toList (handoffHead ++ "\r\n\r\n".toList) = some 66 := by
  decide

/-- The head is cut off where it ends. -/
theorem splitOnceAt_handoffHead (body : Text) :
    splitOnceAt "\r\n\r\n".toList (handoffHead ++ ("\r\n\r\n".toList ++ body)) =
      some (handoffHead, body) := by
  have hlen : handoffHead.length = 66 := rfl
  unfold splitOnceAt
  rw [← List.append_assoc, position_append position_handoffHead, Option.map_some,
    List.drop_left' (by rw [List.length_append, hlen]), List.append_assoc, List.take_left' hlen]

/-- What the address of a node is made of. -/
def PlainAddress (t : Text) : Prop := ∀ c ∈ t, c.isAlphanum ∨ c = '.' ∨ c = ':'

instance decidablePlainAddress (t : Text) : Decidable (PlainAddress t) :=
  List.decidableBAll _ t

/-- The characters of the URL of a node. -/
theorem nodeUrl_plain {address : Text} (h : PlainAddress address) :
    ∀ c ∈ nodeUrl address, isWhitespace c = false ∧ c.toNat < 128 := by
  have haddress : ∀ c ∈ address, isWhitespace c = false ∧ c.toNat < 128 := by
    intro c hc
    rcases h c hc with halnum | rfl | rfl
    · have hrange := toNat_of_isAlphanum halnum
      unfold isWhitespace
      simp only [List.mem_cons, List.not_mem_nil, or_false, decide_eq_false_iff_not, not_or]
      omega
    · decide
    · decide
  have hfixed : ∀ {t : Text}, (t.all fun c => isWhitespace c = false ∧ c.toNat < 128) = true →
      ∀ c ∈ t, isWhitespace c = false ∧ c.toNat < 128 := List.all_iff_forall_prop.mp
  unfold nodeUrl hostPort
  refine List.forall_mem_append.mpr ⟨hfixed rfl, ?_⟩
  split_ifs
  · exact List.forall_mem_append.mpr ⟨List.forall_mem_append.mpr
      ⟨List.forall_mem_cons.mpr ⟨by decide, haddress⟩, hfixed rfl⟩, hfixed rfl⟩
  · exact List.forall_mem_append.mpr ⟨haddress, hfixed rfl⟩

theorem recordable_nodeUrl {address : Text} (h : PlainAddress address) :
    Recordable (nodeUrl address) where
  head c hc := (nodeUrl_plain h c (List.mem_of_mem_head? hc)).1
  last c hc := (nodeUrl_plain h c (List.mem_of_getLast? hc)).1
  newline hmem := absurd (nodeUrl_plain h _ hmem).1 (by decide)

/-- The host of an IPv4 address. -/
theorem host_hostPort {address : Text} (h : ':' ∉ address) (port : ℕ) :
    ((hostPort address port).splitOn ':').headD [] = address := by
  have hv4 : Net.isV6 address = false := by
    rw [Net.isV6, Bool.eq_false_iff, ne_eq, List.contains_iff_mem]
    exact h
  unfold hostPort
  rw [hv4, if_neg Bool.false_ne_true, List.splitOn_append_cons_self_of_not_mem h]
  rfl

section reply

variable {s : Socket} {addr : Text} {pieces : List (List UInt8)} {later : List Read}

/-- The body of a reply that arrives as a whole. -/
theorem httpGetBody_eq (hconnect : s.connect = .ok ())
    (hwrite : s.write (utf8 (getRequest addr)) = .ok ()) {address kubeconfig : Text}
    (hreads : s.reads = pieces.map .ok ++ .ok [] :: later) (hne : ∀ piece ∈ pieces, piece ≠ [])
    (hpieces : pieces.flatten = utf8 (serveKubeconfig address kubeconfig)) :
    httpGetBody s addr = some (sedText loopbackUrl (nodeUrl address) kubeconfig) := by
  have hcode : (splitWhitespace handoffHead)[1]? = some "200".toList := by decide
  unfold httpGetBody
  rw [hconnect, hwrite, hreads, readToEnd_pieces hne, hpieces]
  simp only [Except.toOption, Option.bind_eq_bind, Option.bind_some]
  rw [fromUtf8Lossy_utf8, serveKubeconfig, splitOnceAt_handoffHead, Option.bind_some, hcode]
  rfl

/-- What a body was taken from. -/
theorem httpGetBody_eq_some {kc : Text} (h : httpGetBody s addr = some kc) :
    ∃ raw headers, readToEnd [] s.reads = some raw ∧
      splitOnceAt "\r\n\r\n".toList (fromUtf8Lossy raw) = some (headers, kc) := by
  unfold httpGetBody at h
  obtain ⟨-, -, h⟩ := Option.bind_eq_some_iff.mp h
  obtain ⟨-, -, h⟩ := Option.bind_eq_some_iff.mp h
  obtain ⟨raw, hraw, h⟩ := Option.bind_eq_some_iff.mp h
  obtain ⟨⟨headers, body⟩, hsplit, h⟩ := Option.bind_eq_some_iff.mp h
  obtain ⟨code, -, h⟩ := Option.bind_eq_some_iff.mp h
  split_ifs at h
  obtain rfl := Option.some.inj h
  exact ⟨raw, headers, hraw, hsplit⟩

theorem httpGetBody_eq_none (h : readToEnd [] s.reads = none) : httpGetBody s addr = none := by
  refine Option.eq_none_iff_forall_ne_some.mpr fun kc hkc => ?_
  obtain ⟨raw, -, hraw, -⟩ := httpGetBody_eq_some hkc
  rw [h] at hraw
  cases hraw

end reply

/-- What the host takes out of a kubeconfig. -/
theorem Rendering.quorumClient_body (r : Rendering) {hostport : Text}
    (hurl : r.url = "https://".toList ++ hostport) :
    quorumClient r.body = .ok ⟨utf8 r.ca, utf8 r.crt, utf8 r.key,
      (hostport.splitOn ':').headD [], hostport⟩ := by
  have hpem : ∀ {key pem : Text}, kubeconfigValue r.body key = some (encodePem pem) →
      clientPem r.body key = .ok (utf8 pem) := by
    intro key pem hkey
    unfold clientPem clientField
    have hbytes : decodeBase64 (encodePem pem) = some (utf8 pem) := decodeBase64_eq_some.mpr rfl
    rw [hkey]
    simp only [bind, Except.bind, hbytes]
  have hserver : clientField r.body "server".toList = .ok ("https://".toList ++ hostport) := by
    unfold clientField
    rw [r.kubeconfigValue_server, hurl]
  unfold quorumClient
  rw [hpem r.kubeconfigValue_ca, hpem r.kubeconfigValue_crt, hpem r.kubeconfigValue_key, hserver]
  simp only [bind, Except.bind, stripPrefix_append]
  rfl

/-! ## A reply that is cut off -/

/-- A text that ends before the line of the key has no value for it. -/
theorem kubeconfigValue_of_silent {key t : Text} {ls : List Text} (h : ∀ l ∈ ls, Silent key l)
    (hline : ∀ l ∈ ls, '\n' ∉ l) {b c : List Text} {l q : Text} (hls : ls = b ++ l :: c)
    (hq : q <+: l) (ht : t = b.flatMap (· ++ ['\n']) ++ q) : kubeconfigValue t key = none := by
  subst hls ht
  obtain ⟨hb, hlc⟩ := List.forall_mem_append.mp h
  obtain ⟨hbline, hlcline⟩ := List.forall_mem_append.mp hline
  have hqline : '\n' ∉ q := fun hmem => hlcline l List.mem_cons_self (hq.subset hmem)
  unfold kubeconfigValue
  rw [lines_flatMap_append hbline, List.findSome?_append, findSome?_of_silent hb, Option.none_or,
    List.findSome?_eq_none_iff]
  intro m hm
  rw [lines_of_notMem hqline m hm]
  exact hlc l List.mem_cons_self q hq

/-- Silent lines are passed over. -/
theorem kubeconfigValue_append {key : Text} {ls : List Text} (h : ∀ l ∈ ls, Silent key l)
    (hline : ∀ l ∈ ls, '\n' ∉ l) (t : Text) :
    kubeconfigValue (ls.flatMap (· ++ ['\n']) ++ t) key = kubeconfigValue t key := by
  unfold kubeconfigValue
  rw [lines_flatMap_append hline, List.findSome?_append, findSome?_of_silent h, Option.none_or]

/-- Where some line has a value for the key, what follows the lines makes no difference. -/
theorem kubeconfigValue_congr {key l v : Text} {ls : List Text} (hline : ∀ l ∈ ls, '\n' ∉ l)
    (hl : l ∈ ls) (hv : valueOf key (stripCr l) = some v) (t t' : Text) :
    kubeconfigValue (ls.flatMap (· ++ ['\n']) ++ t) key =
      kubeconfigValue (ls.flatMap (· ++ ['\n']) ++ t') key := by
  have hfound : ((ls.map stripCr).findSome? (valueOf key)).isSome = true := by
    rw [List.findSome?_isSome_iff]
    exact ⟨stripCr l, List.mem_map_of_mem hl, by rw [hv, Option.isSome_some]⟩
  obtain ⟨w, hw⟩ := Option.isSome_iff_exists.mp hfound
  unfold kubeconfigValue
  rw [lines_flatMap_append hline, lines_flatMap_append hline, List.findSome?_append,
    List.findSome?_append, hw, Option.some_or, Option.some_or]

/-- The value that a line of the key has when the text ends inside it or after it. -/
theorem prefix_of_kubeconfigValue {key l v t w : Text} {after : List Text}
    (hl : trimStart l = key ++ ": ".toList) (hcr : l.getLast? ≠ some '\r')
    (hv : ∀ c ∈ v, isWhitespace c = false) (hline : '\n' ∉ l ++ v)
    (ht : t <+: ([l ++ v] ++ after).flatMap (· ++ ['\n']))
    (hw : kubeconfigValue t key = some w) : w <+: v := by
  have htrimmed : ∀ {x : Text}, x <+: v → Trimmed x := fun hx =>
    ⟨fun c hc => hv c (hx.subset (List.mem_of_mem_head? hc)),
      fun c hc => hv c (hx.subset (List.mem_of_getLast? hc))⟩
  have hne : trimStart l ≠ [] := by
    rw [hl]
    exact List.append_ne_nil_of_right_ne_nil _ (by decide)
  unfold kubeconfigValue at hw
  rcases prefix_flatMap ht with ⟨t, rfl, -⟩ | ⟨b, m, c, q, hmem, hq, rfl⟩
  · rw [lines_flatMap_append (List.forall_mem_singleton.mpr hline), List.map_singleton,
      List.singleton_append, List.findSome?_cons,
      valueOf_eq_some hl hcr (htrimmed List.prefix_rfl)] at hw
    rw [Option.some.inj hw]
  · rcases List.singleton_eq_append_iff.mp hmem with ⟨rfl, heq⟩ | ⟨-, hnil⟩
    · obtain ⟨rfl, rfl⟩ := List.cons.inj heq
      rw [List.flatMap_nil, List.nil_append] at hw
      obtain ⟨m, hm, hvalue⟩ := List.exists_of_findSome?_eq_some hw
      rw [lines_of_notMem (fun hmem => hline (hq.subset hmem)) m hm] at hvalue
      unfold valueOf at hvalue
      obtain ⟨x, hx, rfl⟩ := Option.map_eq_some_iff.mp hvalue
      have hcut := prefix_trimStart hq
      rw [stripPrefix_eq_some.mp hx, trimStart_append hne, hl] at hcut
      have hxv := (List.prefix_append_right_inj _).mp hcut
      rwa [trim_eq_self (htrimmed hxv)]
    · cases hnil

/-- The lines before the key of the client. -/
def Rendering.beforeKey (r : Rendering) : List Text :=
  topLines ++ r.middleLines ++ ["    client-certificate-data: ".toList ++ encodePem r.crt]

theorem Rendering.ca_mem_beforeKey (r : Rendering) :
    "    certificate-authority-data: ".toList ++ encodePem r.ca ∈ r.beforeKey :=
  List.mem_append_left _ (List.mem_append_right _ List.mem_cons_self)

theorem Rendering.server_mem_beforeKey (r : Rendering) :
    "    server: ".toList ++ r.url ∈ r.beforeKey :=
  List.mem_append_left _ (List.mem_append_right _ (List.mem_cons_of_mem _ List.mem_cons_self))

theorem Rendering.crt_mem_beforeKey (r : Rendering) :
    "    client-certificate-data: ".toList ++ encodePem r.crt ∈ r.beforeKey :=
  List.mem_append_right _ (List.mem_singleton_self _)

/-- The lines of the file, cut before the one of the key. -/
theorem Rendering.lines_eq (r : Rendering) : r.lines = r.beforeKey ++
    (["    client-key-data: ".toList ++ encodePem r.key] ++ r.lines.drop 12) := rfl

theorem Rendering.newline_notMem_beforeKey (r : Rendering) : ∀ l ∈ r.beforeKey, '\n' ∉ l := by
  intro l hl
  refine r.newline_notMem l ?_
  rw [r.lines_eq]
  exact List.mem_append_left _ hl

theorem Rendering.silent_beforeKey (r : Rendering) :
    ∀ l ∈ r.beforeKey, Silent "client-key-data".toList l := by
  have hcrt : Unlike "client-key-data".toList "    client-certificate-data: ".toList := by decide
  exact List.forall_mem_append.mpr
    ⟨r.silent_front (by decide), List.forall_mem_singleton.mpr (hcrt.silent _)⟩

/-- What is taken for the key of the client is the beginning of it, and then everything before
    the key is there. -/
theorem Rendering.key_of_cut (r : Rendering) {t w : Text} (ht : t <+: r.body)
    (hw : kubeconfigValue t "client-key-data".toList = some w) :
    w <+: encodePem r.key ∧ ∃ t', t = r.beforeKey.flatMap (· ++ ['\n']) ++ t' := by
  have hline : ∀ l ∈ r.beforeKey, '\n' ∉ l := r.newline_notMem_beforeKey
  rw [r.body_eq, r.lines_eq] at ht
  rcases prefix_flatMap ht with ⟨t', rfl, ht'⟩ | ⟨b, l, c, q, hb, hq, hcut⟩
  · rw [kubeconfigValue_append r.silent_beforeKey hline] at hw
    refine ⟨prefix_of_kubeconfigValue (by decide) (by decide) (isWhitespace_encodePem _) ?_ ht' hw,
      t', rfl⟩
    refine r.newline_notMem _ ?_
    rw [r.lines_eq]
    exact List.mem_append_right _ List.mem_cons_self
  · rw [kubeconfigValue_of_silent r.silent_beforeKey hline hb hq hcut] at hw
    cases hw

theorem clientPem_eq_ok {kc key : Text} {bytes : List UInt8} :
    clientPem kc key = .ok bytes ↔ kubeconfigPem kc key = some bytes := by
  unfold clientPem clientField kubeconfigPem
  cases kubeconfigValue kc key with
  | none => simp [bind, Except.bind]
  | some v => cases hbytes : decodeBase64 v <;> simp [bind, Except.bind, hbytes]

/-- The fields of a client. -/
theorem quorumClient_eq_ok {kc : Text} {q : QuorumClient} (h : quorumClient kc = .ok q) :
    kubeconfigPem kc "certificate-authority-data".toList = some q.ca ∧
      kubeconfigPem kc "client-certificate-data".toList = some q.crt ∧
      kubeconfigPem kc "client-key-data".toList = some q.key ∧
      kubeconfigValue kc "server".toList = some ("https://".toList ++ q.addr) ∧
      q.host = (q.addr.splitOn ':').headD [] := by
  unfold quorumClient at h
  cases hca : clientPem kc "certificate-authority-data".toList with
  | error e => rw [hca] at h; cases h
  | ok ca =>
  cases hcrt : clientPem kc "client-certificate-data".toList with
  | error e => rw [hca, hcrt] at h; cases h
  | ok crt =>
  cases hkey : clientPem kc "client-key-data".toList with
  | error e => rw [hca, hcrt, hkey] at h; cases h
  | ok key =>
  cases hurl : kubeconfigValue kc "server".toList with
  | none => simp only [hca, hcrt, hkey, clientField, hurl, bind, Except.bind] at h; cases h
  | some url =>
  simp only [hca, hcrt, hkey, clientField, hurl, bind, Except.bind] at h
  cases hhost : stripPrefix "https://".toList url with
  | none => rw [hhost] at h; cases h
  | some hostport =>
    rw [hhost] at h
    obtain rfl := Except.ok.inj h
    exact ⟨clientPem_eq_ok.mp hca, clientPem_eq_ok.mp hcrt, clientPem_eq_ok.mp hkey,
      congrArg some (stripPrefix_eq_some.mp hhost), rfl⟩

/-- Where everything before the key is there, the values of those lines are those of the file. -/
theorem Rendering.kubeconfigValue_of_cut (r : Rendering) {key l v t : Text}
    (hmem : l ++ v ∈ r.beforeKey) (hl : trimStart l = key ++ ": ".toList)
    (hcr : l.getLast? ≠ some '\r') (hv : Trimmed v) :
    kubeconfigValue (r.beforeKey.flatMap (· ++ ['\n']) ++ t) key = kubeconfigValue r.body key := by
  have hbody : r.body = r.beforeKey.flatMap (· ++ ['\n']) ++
      (r.lines.drop 11).flatMap (· ++ ['\n']) := by
    rw [r.body_eq, ← List.flatMap_append]
    rfl
  rw [hbody]
  exact kubeconfigValue_congr r.newline_notMem_beforeKey hmem (valueOf_eq_some hl hcr hv) _ _

theorem Rendering.kubeconfigPem_of_cut (r : Rendering) {key l pem t : Text} {bytes : List UInt8}
    (hmem : l ++ encodePem pem ∈ r.beforeKey) (hl : trimStart l = key ++ ": ".toList)
    (hcr : l.getLast? ≠ some '\r') (hvalue : kubeconfigValue r.body key = some (encodePem pem))
    (hbytes : kubeconfigPem (r.beforeKey.flatMap (· ++ ['\n']) ++ t) key = some bytes) :
    bytes = utf8 pem := by
  unfold kubeconfigPem at hbytes
  rw [r.kubeconfigValue_of_cut hmem hl hcr (trimmed_encodePem pem), hvalue, Option.bind_some,
    decodeBase64_eq_some] at hbytes
  exact (base64_injective hbytes).symm

/-- What the host takes out of a kubeconfig that is cut off, if it takes anything. -/
theorem Rendering.quorumClient_of_cut (r : Rendering) {hostport t : Text} {q : QuorumClient}
    (hurl : r.url = "https://".toList ++ hostport) (ht : t <+: r.body)
    (hq : quorumClient t = .ok q) :
    q.ca = utf8 r.ca ∧ q.crt = utf8 r.crt ∧ q.key <+: utf8 r.key ∧
      q.host = (hostport.splitOn ':').headD [] ∧ q.addr = hostport := by
  obtain ⟨hca, hcrt, hkey, hserver, hhost⟩ := quorumClient_eq_ok hq
  obtain ⟨w, hw, hdecode⟩ := Option.bind_eq_some_iff.mp hkey
  obtain ⟨hcut, t', rfl⟩ := r.key_of_cut ht hw
  have haddr : q.addr = hostport := by
    rw [r.kubeconfigValue_of_cut r.server_mem_beforeKey (by decide) (by decide)
      r.url_recordable.toTrimmed, r.kubeconfigValue_server, hurl] at hserver
    exact (List.append_cancel_left (Option.some.inj hserver)).symm
  have hkeyPrefix : q.key <+: utf8 r.key := by
    rw [decodeBase64_eq_some.mp hdecode] at hcut
    exact prefix_of_base64_prefix hcut
  refine ⟨?_, ?_, hkeyPrefix, by rw [hhost, haddr], haddr⟩
  · exact r.kubeconfigPem_of_cut r.ca_mem_beforeKey (by decide) (by decide) r.kubeconfigValue_ca hca
  · exact r.kubeconfigPem_of_cut r.crt_mem_beforeKey (by decide) (by decide) r.kubeconfigValue_crt
      hcrt

/-- Text of ASCII that is cut off as bytes is cut off as text. -/
theorem exists_prefix_of_utf8 {t : Text} (h : ∀ c ∈ t, c.toNat < 128) {l : List UInt8}
    (hl : l <+: utf8 t) : ∃ t', t' <+: t ∧ l = utf8 t' := by
  rw [utf8_of_ascii h] at hl
  refine ⟨t.take l.length, List.take_prefix _ _, ?_⟩
  rw [utf8_of_ascii fun c hc => h c (List.mem_of_mem_take hc), List.map_take]
  exact List.prefix_iff_eq_take.mp hl

theorem ascii_of_all {t : Text} (h : (t.all fun c => c.toNat < 128) = true) :
    ∀ c ∈ t, c.toNat < 128 := List.all_iff_forall_prop.mp h

theorem Rendering.ascii_body (r : Rendering) (hurl : ∀ c ∈ r.url, c.toNat < 128)
    (huser : ∀ c ∈ r.user, c.toNat < 128) : ∀ c ∈ r.body, c.toNat < 128 := by
  have hfront : ∀ {a b : Text}, (a.all fun c => c.toNat < 128) = true →
      (∀ c ∈ b, c.toNat < 128) → ∀ c ∈ a ++ b, c.toNat < 128 := fun ha hb =>
    List.forall_mem_append.mpr ⟨ascii_of_all ha, hb⟩
  have hlines : ∀ l ∈ r.lines, ∀ c ∈ l, c.toNat < 128 := by
    unfold Rendering.lines
    simp only [List.forall_mem_cons (p := fun l : Text => ∀ c ∈ l, c.toNat < 128)]
    refine ⟨ascii_of_all rfl, ascii_of_all rfl, ascii_of_all rfl, ascii_of_all rfl,
      ascii_of_all rfl, hfront rfl (ascii_encodePem r.ca), hfront rfl hurl, ascii_of_all rfl,
      hfront rfl huser, ascii_of_all rfl, hfront rfl (ascii_encodePem r.crt),
      hfront rfl (ascii_encodePem r.key), ascii_of_all rfl, ascii_of_all rfl, ascii_of_all rfl,
      ascii_of_all rfl, hfront rfl huser, ascii_of_all rfl, ?_⟩
    exact List.forall_mem_nil _
  intro c hc
  rw [r.body_eq] at hc
  obtain ⟨l, hl, hmem⟩ := List.mem_flatMap.mp hc
  exact List.forall_mem_append.mpr ⟨hlines l hl, ascii_of_all rfl⟩ c hmem

/-- The body of a reply that is cut off. -/
theorem prefix_of_splitOnceAt {t headers kc body : Text}
    (ht : t <+: handoffHead ++ ("\r\n\r\n".toList ++ body))
    (h : splitOnceAt "\r\n\r\n".toList t = some (headers, kc)) : kc <+: body := by
  obtain ⟨p, hp, heq⟩ := Option.map_eq_some_iff.mp h
  have hwhole : position "\r\n\r\n".toList (handoffHead ++ ("\r\n\r\n".toList ++ body)) =
      some 66 := by
    rw [← List.append_assoc, position_append position_handoffHead]
  -- the blank line that is found is still there, and still the first, in the whole reply
  have hend : p = 66 := by
    obtain ⟨rest, hrest⟩ := ht
    rw [← hrest, position_append hp] at hwhole
    exact Option.some.inj hwhole
  have hbody : (handoffHead ++ ("\r\n\r\n".toList ++ body)).drop 70 = body := by
    rw [← List.append_assoc]
    exact List.drop_left' rfl
  subst hend
  rw [← (Prod.mk.inj heq).2, ← hbody]
  exact ht.drop 70

/-! ## From the server to the host -/

/-- A connection of the host to a server with a kubeconfig for its own apiserver. -/
structure Handoff (s : Socket) (addr address : Text) (r : Rendering) : Prop where
  connect : s.connect = .ok ()
  write : s.write (utf8 (getRequest addr)) = .ok ()
  address_plain : PlainAddress address
  url_eq : r.url = loopbackUrl
  user_ascii : ∀ c ∈ r.user, c.toNat < 128
  user_colon : ':' ∉ r.user

section handoff

variable {s : Socket} {addr address : Text} {r : Rendering} {pieces : List (List UInt8)}
  {later : List Read}

/-- The kubeconfig that is sent. -/
def Handoff.sent (h : Handoff s addr address r) : Rendering :=
  r.withUrl (nodeUrl address) (recordable_nodeUrl h.address_plain)

theorem Handoff.sent_url (h : Handoff s addr address r) :
    h.sent.url = "https://".toList ++ hostPort address 6443 := rfl

theorem Handoff.sedText_body (h : Handoff s addr address r) :
    sedText loopbackUrl (nodeUrl address) r.body = h.sent.body :=
  r.sedText_body h.url_eq h.user_colon _

theorem Handoff.ascii_reply (h : Handoff s addr address r) :
    ∀ c ∈ serveKubeconfig address r.body, c.toNat < 128 := by
  have hbody : ∀ c ∈ h.sent.body, c.toNat < 128 :=
    h.sent.ascii_body (fun c hc => (nodeUrl_plain h.address_plain c hc).2) h.user_ascii
  unfold serveKubeconfig
  rw [h.sedText_body]
  exact List.forall_mem_append.mpr
    ⟨ascii_of_all rfl, List.forall_mem_append.mpr ⟨ascii_of_all rfl, hbody⟩⟩

/-- The whole reply gives the host what the server has, for the address of the node. -/
theorem Handoff.client_of_whole (h : Handoff s addr address r)
    (hreads : s.reads = pieces.map .ok ++ .ok [] :: later) (hne : ∀ piece ∈ pieces, piece ≠ [])
    (hpieces : pieces.flatten = utf8 (serveKubeconfig address r.body)) :
    (httpGetBody s addr).map quorumClient = some (.ok ⟨utf8 r.ca, utf8 r.crt, utf8 r.key,
      ((hostPort address 6443).splitOn ':').headD [], hostPort address 6443⟩) := by
  rw [httpGetBody_eq h.connect h.write hreads hne hpieces, h.sedText_body, Option.map_some,
    h.sent.quorumClient_body h.sent_url]
  rfl

/-- What a reply that ends early can be taken for. -/
theorem Handoff.client_of_cut (h : Handoff s addr address r)
    (hreads : s.reads = pieces.map .ok ++ .ok [] :: later) (hne : ∀ piece ∈ pieces, piece ≠ [])
    (hpieces : pieces.flatten <+: utf8 (serveKubeconfig address r.body)) {kc : Text}
    {q : QuorumClient} (hkc : httpGetBody s addr = some kc) (hq : quorumClient kc = .ok q) :
    q.ca = utf8 r.ca ∧ q.crt = utf8 r.crt ∧ q.key <+: utf8 r.key ∧
      q.host = ((hostPort address 6443).splitOn ':').headD [] ∧ q.addr = hostPort address 6443 := by
  obtain ⟨raw, headers, hraw, hsplit⟩ := httpGetBody_eq_some hkc
  rw [hreads, readToEnd_pieces hne] at hraw
  obtain rfl := Option.some.inj hraw
  -- the reply is of ASCII, so the cut is between two characters
  obtain ⟨t, ht, hflat⟩ := exists_prefix_of_utf8 h.ascii_reply hpieces
  rw [hflat, fromUtf8Lossy_utf8] at hsplit
  have hcut := prefix_of_splitOnceAt ht hsplit
  rw [h.sedText_body] at hcut
  exact h.sent.quorumClient_of_cut h.sent_url hcut hq

/-- The handoff of the admin kubeconfig: the host has the credentials of the server and the
    address of the node, in whatever pieces the reply arrives; it has nothing of a connection
    that breaks or falls silent; and where the reply ends early, it either gets no client or one
    with the same CA, certificate and address, whose key is the beginning of the key. -/
theorem kubeconfig_handoff (h : Handoff s addr address r) (hne : ∀ piece ∈ pieces, piece ≠ []) :
    (∀ later, s.reads = pieces.map .ok ++ .ok [] :: later →
      pieces.flatten = utf8 (serveKubeconfig address r.body) →
      (httpGetBody s addr).map quorumClient = some (.ok ⟨utf8 r.ca, utf8 r.crt, utf8 r.key,
        ((hostPort address 6443).splitOn ':').headD [], hostPort address 6443⟩)) ∧
    (∀ later, (s.reads = pieces.map .ok ∨ ∃ e, s.reads = pieces.map .ok ++ .error e :: later) →
      httpGetBody s addr = none) ∧
    (∀ later, s.reads = pieces.map .ok ++ .ok [] :: later →
      pieces.flatten <+: utf8 (serveKubeconfig address r.body) →
      ∀ kc q, httpGetBody s addr = some kc → quorumClient kc = .ok q →
        q.ca = utf8 r.ca ∧ q.crt = utf8 r.crt ∧ q.key <+: utf8 r.key ∧
          q.host = ((hostPort address 6443).splitOn ':').headD [] ∧
          q.addr = hostPort address 6443) ∧
    (':' ∉ address → ((hostPort address 6443).splitOn ':').headD [] = address) := by
  refine ⟨fun later hreads hwhole => h.client_of_whole hreads hne hwhole, ?_,
    fun later hreads hcut kc q hkc hq => h.client_of_cut hreads hne hcut hkc hq,
    fun hv4 => host_hostPort hv4 6443⟩
  rintro later (hreads | ⟨e, hreads⟩)
  · refine httpGetBody_eq_none ?_
    rw [hreads, ← List.append_nil (pieces.map _), readToEnd_append hne]
    rfl
  · refine httpGetBody_eq_none ?_
    rw [hreads, readToEnd_append hne]
    rfl

end handoff

/-- A reply of the server at 10.100.0.2 that arrives in two pieces. -/
def twoPieces (ca : Text) : List (List UInt8) :=
  [utf8 handoffHead, utf8 ("\r\n\r\n".toList ++
    sedText loopbackUrl (nodeUrl "10.100.0.2".toList) (Rendering.admin ca).body)]

/-- The connection that it arrives on. -/
def adminSocket (ca : Text) : Socket where
  connect := .ok ()
  write _ := .ok ()
  reads := (twoPieces ca).map .ok ++ [.ok []]

theorem handoff_adminSocket (ca : Text) : Handoff (adminSocket ca)
    "10.100.0.2:10124".toList "10.100.0.2".toList (Rendering.admin ca) where
  connect := rfl
  write := rfl
  address_plain := by decide
  url_eq := rfl
  user_ascii := ascii_of_all rfl
  user_colon := show ':' ∉ "kubenyx-admin".toList by decide

theorem kubeconfig_handoff_two_pieces :
    (httpGetBody (adminSocket firstCa) "10.100.0.2:10124".toList).map quorumClient =
      some (.ok ⟨utf8 firstCa, utf8 (certificatePem "Q0VSVENFUlRDRVJU".toList),
        utf8 (Rendering.admin firstCa).key, "10.100.0.2".toList, "10.100.0.2:6443".toList⟩) := by
  have hne : ∀ piece ∈ twoPieces firstCa, piece ≠ [] := by
    refine List.forall_mem_cons.mpr ⟨utf8_ne_nil (by decide), List.forall_mem_singleton.mpr ?_⟩
    exact utf8_ne_nil (List.append_ne_nil_of_left_ne_nil (by decide) _)
  have hwhole : (twoPieces firstCa).flatten =
      utf8 (serveKubeconfig "10.100.0.2".toList (Rendering.admin firstCa).body) := by
    unfold serveKubeconfig
    rw [utf8_append]
    exact congrArg _ (List.append_nil _)
  have hhost : hostPort "10.100.0.2".toList 6443 = "10.100.0.2:6443".toList := by decide
  obtain ⟨hclient, -, -, hv4⟩ := kubeconfig_handoff (handoff_adminSocket firstCa) hne
  rw [hclient [] rfl hwhole, hv4 (by decide), hhost]
  rfl

end Kubenyx.Snap
