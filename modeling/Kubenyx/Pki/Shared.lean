import Kubenyx.Common.FileProg
import Kubenyx.Common.IpAddr

/-!
# Files, keys and certificates

Model of the shared helpers of `rust/kubenyx-pki/src/lib.rs` (lines 165-248). A mode of
the program is a `Prog`: it reads and replaces files of the PKI directory and of the
kubeconfig directory, and returns, exits through `die` or panics.

* `fs::read_to_string` fails on bytes that are not UTF-8, so the content of a file is
  a text, or bytes that encode none.
* `write_private` fills a temporary file and renames it over the target, which
  replaces the file atomically; the temporary file is not modelled.
* The libraries that make keys and certificates (`rcgen`, `p256`, `x509_parser`) are a
  parameter, `Rcgen`. What a certificate says is a `Cert`; `Rcgen.Lawful` is what the
  program relies on: what was serialized parses back, and different keys have
  different serializations and different public halves.
* Generated keys, serial numbers and readings of the clock are inputs of a run.
-/

namespace Kubenyx.Pki

open Kubenyx.Common

/-- `DAY` (lib.rs:29). -/
def DAY : ℤ := 86400

/-! ## Files -/

/-- The two directories, `--pki-dir` (or `--out`) and `--kubeconfig-dir`. -/
inductive Dir where
  | pki
  | kubeconfigs
  deriving DecidableEq, Repr

/-- A file, by its directory and its path in it. -/
structure File where
  dir : Dir
  path : Text
  deriving DecidableEq, Repr

/-- The content of a file. -/
inductive Content where
  | text (t : Text)
  /-- Bytes that are not valid UTF-8. -/
  | binary (b : List UInt8) (h : ∀ t, utf8 t ≠ b)

namespace Content

def bytes : Content → List UInt8
  | text t => utf8 t
  | binary b _ => b

/-- The length of the file is not 0. -/
def nonEmpty (c : Content) : Bool := c.bytes ≠ []

end Content

abbrev Disk := Files File Content

/-- The ways in which the program ends early. -/
inductive Exit where
  /-- `die(msg)`: exit code 1. -/
  | die (msg : Text)
  | panic (msg : Text)
  deriving DecidableEq, Repr

abbrev Prog := FileProg File Content Exit

def die {α : Type} (msg : Text) : Prog α := .fail (.die msg)

def panic {α : Type} (msg : Text) : Prog α := .fail (.panic msg)

/-- `pki.join(path)`. -/
def inPki (path : Text) : File := ⟨.pki, path⟩

theorem inPki_injective : Function.Injective inPki := fun _ _ h => (File.mk.inj h).2

/-- `std::io::Error`, as far as reading a file goes. -/
inductive IoError where
  | notFound
  | invalidData
  deriving DecidableEq, Repr

/-- `{e}`. -/
def IoError.display : IoError → Text
  | notFound => "No such file or directory (os error 2)".toList
  | invalidData => "stream did not contain valid UTF-8".toList

/-- `{e:?}`. -/
def IoError.debug : IoError → Text
  | notFound =>
    "Os \x7b code: 2, kind: NotFound, message: \"No such file or directory\" \x7d".toList
  | invalidData =>
    "Error \x7b kind: InvalidData, message: \"stream did not contain valid UTF-8\" \x7d".toList

/-- What `fs::read_to_string` returns for a content. -/
def decodeText : Option Content → Except IoError Text
  | some (.text t) => .ok t
  | some (.binary _ _) => .error .invalidData
  | none => .error .notFound

@[simp] theorem decodeText_text (t : Text) : decodeText (some (.text t)) = .ok t := rfl

theorem decodeText_eq_ok {c : Option Content} {t : Text} (h : decodeText c = .ok t) :
    c = some (.text t) := by
  match c with
  | some (.text t') => rw [Except.ok.inj h]

/-- `fs::read_to_string`. -/
def readToString (f : File) : Prog (Except IoError Text) := do
  let c ← FileProg.readFile f
  return decodeText c

/-- `Path::exists`. -/
def pathExists (f : File) : Prog Bool := do
  let c ← FileProg.readFile f
  return c.isSome

/-- There is a file and it is not empty. -/
def isNonEmpty (c : Option Content) : Bool := c.elim false Content.nonEmpty

/-- `non_empty` (lib.rs:188-190). -/
def nonEmpty (f : File) : Prog Bool := do
  let c ← FileProg.readFile f
  return isNonEmpty c

/-- `write_private` (lib.rs:169-186). -/
def writePrivate (f : File) (data : Text) : Prog Unit := FileProg.writeFile f (.text data)

section Reads

variable {α : Type} (f : File) (d : Disk)

theorem run_readToString_bind (k : Except IoError Text → Prog α) :
    (readToString f >>= k).run d = (k (decodeText (d f))).run d := rfl

theorem writes_readToString_bind (k : Except IoError Text → Prog α) :
    (readToString f >>= k).writes d = (k (decodeText (d f))).writes d := rfl

theorem run_pathExists_bind (k : Bool → Prog α) :
    (pathExists f >>= k).run d = (k (d f).isSome).run d := rfl

theorem writes_pathExists_bind (k : Bool → Prog α) :
    (pathExists f >>= k).writes d = (k (d f).isSome).writes d := rfl

theorem run_nonEmpty_bind (k : Bool → Prog α) :
    (nonEmpty f >>= k).run d = (k (isNonEmpty (d f))).run d := rfl

theorem writes_nonEmpty_bind (k : Bool → Prog α) :
    (nonEmpty f >>= k).writes d = (k (isNonEmpty (d f))).writes d := rfl

end Reads

theorem allWrites_readToString {W : File → Content → Prop} (f : File) :
    (readToString f).AllWrites W := fun _ => trivial

theorem allWrites_pathExists {W : File → Content → Prop} (f : File) :
    (pathExists f).AllWrites W := fun _ => trivial

theorem allWrites_nonEmpty {W : File → Content → Prop} (f : File) : (nonEmpty f).AllWrites W :=
  fun _ => trivial

/-- The files of a list that are missing or empty. -/
def missingFiles : List Text → Prog (List Text)
  | [] => return []
  | f :: fs => do
    let present ← nonEmpty (inPki f)
    let rest ← missingFiles fs
    return if present then rest else f :: rest

theorem run_missingFiles (fs : List Text) (d : Disk) :
    (missingFiles fs).run d = (.ok (fs.filter fun f => !isNonEmpty (d (inPki f))), d) := by
  induction fs with
  | nil => rfl
  | cons f fs ih =>
    rw [missingFiles, run_nonEmpty_bind, FileProg.run_bind, ih, List.filter_cons]
    cases isNonEmpty (d (inPki f)) with
    | true => rfl
    | false => rfl

theorem allWrites_missingFiles {W : File → Content → Prop} (fs : List Text) :
    (missingFiles fs).AllWrites W := by
  induction fs with
  | nil => trivial
  | cons f fs ih => exact (allWrites_nonEmpty _).bind fun _ => ih.bind fun _ => trivial

/-- No file of the list is missing. -/
theorem filter_missing_eq_nil {fs : List Text} {d : Disk}
    (h : ∀ f ∈ fs, isNonEmpty (d (inPki f)) = true) :
    (fs.filter fun f => !isNonEmpty (d (inPki f))) = [] := by
  rw [List.filter_eq_nil_iff]
  intro f hf
  rw [h f hf]
  exact Bool.false_ne_true

theorem nonEmpty_text {t : Text} (h : t ≠ []) : isNonEmpty (some (.text t)) = true := by
  have hutf8 : utf8 t ≠ [] := fun hnil => h (utf8_injective hnil)
  exact decide_eq_true hutf8

/-- A PKI directory in which the given files hold the text `old`. -/
def shipped (paths : List Text) : Disk := fun f =>
  if f.dir = .pki ∧ f.path ∈ paths then some (.text "old".toList) else none

/-! ## Configuration -/

/-- The name of a declared node: one component of a path, or nothing. With an empty name the
    paths of the node have two slashes in a row, and name files that no other path names. -/
def NodeName := { name : Text // '/' ∉ name ∧ name ≠ ".".toList ∧ name ≠ "..".toList }
  deriving DecidableEq

/-- `Cfg` (lib.rs:31-51), what the server and the agent read of it. -/
structure Cfg where
  pki : Text
  nodeName : Text
  nodeAddress : Option Text
  apiUrl : Text
  clusterDomain : Text
  serviceIp : Text
  extraSans : List Text
  nodes : List (NodeName × Option Text)
  leafDays : ℤ
  renewDays : ℤ
  etcd : Bool
  etcdSans : List Text
  requireShippedCa : Bool

/-! ## Digest -/

/-- `fnv1a` (lib.rs:194-201). -/
def fnv1a (data : List UInt8) : UInt64 :=
  data.foldl (fun h b => (h ^^^ b.toUInt64) * 0x100000001b3) 0xcbf29ce484222325

/-- `{x:016x}`. -/
def hex16 (x : UInt64) : Text :=
  (List.range 16).map fun i => Nat.digitChar (x.toNat / 16 ^ (15 - i) % 16)

/-! ## Certificates -/

/-- A distinguished name, of the attributes that the program sets. -/
structure Name where
  org : Option Text
  cn : Text
  deriving DecidableEq, Repr

/-- `ExtendedKeyUsagePurpose`. -/
inductive Eku where
  | any
  | serverAuth
  | clientAuth
  | codeSigning
  | emailProtection
  | timeStamping
  | ocspSigning
  | other (oid : List ℕ)
  deriving DecidableEq, Repr, Encodable

/-- `KeyUsagePurpose`, those that the program uses. -/
inductive KeyUsage where
  | digitalSignature
  | keyEncipherment
  | keyCertSign
  | crlSign
  deriving DecidableEq, Repr, Encodable

/-- `SanType`, those that the program uses. -/
inductive San where
  | dnsName (name : Text)
  | ipAddress (addr : IpAddr)
  deriving DecidableEq, Repr

/-- What a certificate says. -/
structure Cert (Pub : Type) where
  subject : Name
  /-- The subject of the certificate that issued this one. -/
  issuer : Name
  /-- The public half of the key that signed it. -/
  signer : Pub
  pub : Pub
  isCa : Bool
  serial : ℕ
  notBefore : ℤ
  notAfter : ℤ
  keyUsages : List KeyUsage
  ekus : List Eku
  sans : List San

/-- The libraries for keys and certificates. -/
structure Rcgen where
  /-- An ECDSA P-256 private key. -/
  Key : Type
  Pub : Type
  pub : Key → Pub
  /-- `KeyPair::serialize_pem` and `KeyPair::from_pem`. -/
  keyPem : Key → Text
  keyFromPem : Text → Except Text Key
  /-- `Certificate::pem`, and the parser of `x509_parser`. -/
  certPem : Cert Pub → Text
  certFromPem : Text → Except Text (Cert Pub)
  /-- `SecretKey::to_pkcs8_pem` and `PublicKey::to_public_key_pem`. -/
  saKeyPem : Key → Text
  saPubPem : Pub → Text

/-- What the program relies on. -/
structure Rcgen.Lawful (R : Rcgen) : Prop where
  pub_injective : Function.Injective R.pub
  keyFromPem_keyPem : ∀ k, R.keyFromPem (R.keyPem k) = .ok k
  certFromPem_certPem : ∀ c, R.certFromPem (R.certPem c) = .ok c
  saKeyPem_injective : Function.Injective R.saKeyPem
  saPubPem_injective : Function.Injective R.saPubPem
  keyPem_ne_nil : ∀ k, R.keyPem k ≠ []
  certPem_ne_nil : ∀ c, R.certPem c ≠ []
  saKeyPem_ne_nil : ∀ k, R.saKeyPem k ≠ []
  saPubPem_ne_nil : ∀ p, R.saPubPem p ≠ []

namespace Rcgen.Lawful

variable {R : Rcgen}

theorem keyPem_injective (h : R.Lawful) : Function.Injective R.keyPem := by
  intro k l hkl
  have := h.keyFromPem_keyPem k
  rw [hkl, h.keyFromPem_keyPem l] at this
  exact (Except.ok.inj this).symm

theorem certPem_injective (h : R.Lawful) : Function.Injective R.certPem := by
  intro c d hcd
  have := h.certFromPem_certPem c
  rw [hcd, h.certFromPem_certPem d] at this
  exact (Except.ok.inj this).symm

end Rcgen.Lawful

/-! A stand-in for the libraries: keys are numbers, and a key or a certificate is
serialized as a tag and its code in unary. -/

instance encodableChar : Encodable Char := Encodable.ofLeftInverse Char.toNat Char.ofNat Char.ofNat_toNat

deriving instance Encodable for Name, San, Cert

/-- The code of a value, in unary. -/
def unary {α : Type} [Encodable α] (tag : Char) (a : α) : Text :=
  tag :: List.replicate (Encodable.encode a) '.'

def unary? {α : Type} [Encodable α] (t : Text) : Except Text α :=
  match Encodable.decode (t.length - 1) with
  | some a => .ok a
  | none => .error "not a code".toList

theorem unary?_unary {α : Type} [Encodable α] (tag : Char) (a : α) :
    unary? (unary tag a) = .ok a := by
  simp [unary?, unary]

theorem unary_injective {α : Type} [Encodable α] (tag : Char) :
    Function.Injective (fun a : α => unary tag a) := by
  intro a b h
  have hab : (unary? (unary tag a) : Except Text α) = unary? (unary tag b) := congrArg unary? h
  rw [unary?_unary, unary?_unary] at hab
  exact Except.ok.inj hab

def Rcgen.unary : Rcgen where
  Key := ℕ
  Pub := ℕ
  pub := id
  keyPem := Pki.unary 'K'
  keyFromPem := Pki.unary?
  certPem := Pki.unary 'C'
  certFromPem := Pki.unary?
  saKeyPem := Pki.unary 'S'
  saPubPem := Pki.unary 'P'

theorem Rcgen.unary_lawful : Rcgen.unary.Lawful where
  pub_injective := Function.injective_id
  keyFromPem_keyPem (k : ℕ) := unary?_unary 'K' k
  certFromPem_certPem (c : Cert ℕ) := unary?_unary 'C' c
  saKeyPem_injective := show Function.Injective fun k : ℕ => Pki.unary 'S' k from
    unary_injective 'S'
  saPubPem_injective := show Function.Injective fun p : ℕ => Pki.unary 'P' p from
    unary_injective 'P'
  keyPem_ne_nil _ := List.cons_ne_nil _ _
  certPem_ne_nil _ := List.cons_ne_nil _ _
  saKeyPem_ne_nil _ := List.cons_ne_nil _ _
  saPubPem_ne_nil _ := List.cons_ne_nil _ _

/-- `not_after_ts` (lib.rs:203-207). -/
def notAfterTs (R : Rcgen) (pem : Text) : Option ℤ :=
  match R.certFromPem pem with
  | .ok c => some c.notAfter
  | .error _ => none

theorem notAfterTs_certPem {R : Rcgen} (hR : R.Lawful) (c : Cert R.Pub) :
    notAfterTs R (R.certPem c) = some c.notAfter := by
  unfold notAfterTs
  rw [hR.certFromPem_certPem]

/-- The last second of the year 9999, where `OffsetDateTime` ends. -/
def maxTimestamp : ℤ := 253402300799

/-- A reading of the system clock, in seconds; not later than ten years before the
    end of `OffsetDateTime`. -/
structure Clock where
  secs : ℤ
  nonneg : 0 ≤ secs
  le_max : secs + 3650 * DAY ≤ maxTimestamp

/-- `now_utc() + Duration::days(days)`, `none` where it panics. -/
def Clock.addDays (t : Clock) (days : ℤ) : Option ℤ :=
  if -377705116800 ≤ t.secs + days * DAY ∧ t.secs + days * DAY ≤ maxTimestamp then
    some (t.secs + days * DAY)
  else none

/-- What making one certificate takes from outside: the key that
    `KeyPair::generate_for` returns, the serial number of `random_serial`
    (lib.rs:213-218) and the two readings of the clock. -/
structure Gen (R : Rcgen) where
  key : R.Key
  serial : ℕ
  before : Clock
  after : Clock

/-- The clock at its origin. -/
def Clock.zero : Clock := ⟨0, le_rfl, by decide⟩

/-- A key at time 0. -/
def Gen.sample (k : ℕ) : Gen Rcgen.unary := ⟨k, 0, Clock.zero, Clock.zero⟩

/-- `Issuer` (lib.rs:223-228). Of the certificate that `load_issuer` rebuilds, only
    the subject is used. -/
structure Issuer (R : Rcgen) where
  subject : Name
  key : R.Key
  pem : Text
  name : Text

/-- `load_issuer` (lib.rs:231-248). -/
def loadIssuer (R : Rcgen) (name : Text) : Prog (Issuer R) := do
  match ← readToString (inPki (name ++ ".crt".toList)) with
  | .error e => die ("read ".toList ++ name ++ ".crt: ".toList ++ e.display)
  | .ok crt =>
    match ← readToString (inPki (name ++ ".key".toList)) with
    | .error e => die ("read ".toList ++ name ++ ".key: ".toList ++ e.display)
    | .ok key =>
      match R.keyFromPem key with
      | .error e => die ("parse ".toList ++ name ++ ".key: ".toList ++ e)
      | .ok kp =>
        match R.certFromPem crt with
        | .error e => die ("parse ".toList ++ name ++ ".crt: ".toList ++ e)
        | .ok cert => return { subject := cert.subject, key := kp, pem := crt, name := name }

end Kubenyx.Pki
