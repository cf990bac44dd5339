import Kubenyx.Common.Decimal
import Kubenyx.Common.RustStr

/-!
# The command line of the readiness wrapper

Model of the argument loop of `run` and of `build_probe` (kubenyx-ready lib.rs:58-148 and
224-306). The units of the control plane call the wrapper with a URL to probe and, after
`--`, with the component that it starts (modules/control-plane.nix:270-366).

* `parseFlags_iff`: the loop accepts options in any order up to `--`, and takes what follows
  as it is.
* `target_iff`: the URLs that are accepted, and what is probed for each.
* `plan_iff`: the command lines that are accepted, and what they ask for.
-/

namespace Kubenyx.Ready

open Kubenyx.Common

/-! ## The loop over the arguments -/

/-- What the loop collects (lib.rs:225-230). -/
structure Options where
  url : Option Text
  cacert : Option Text
  cert : Option Text
  key : Option Text
  insecure : Bool
  waitOnly : Bool
  deriving DecidableEq

/-- The values before the loop. -/
def Options.none : Options := ⟨.none, .none, .none, .none, false, false⟩

/-- The options that take a value (lib.rs:234-265). -/
inductive ValueFlag where
  | url
  | cacert
  | cert
  | key
  deriving DecidableEq, Repr

namespace ValueFlag

def text : ValueFlag → Text
  | url => "--url".toList
  | cacert => "--cacert".toList
  | cert => "--cert".toList
  | key => "--key".toList

def set (o : Options) (v : Text) : ValueFlag → Options
  | url => { o with url := some v }
  | cacert => { o with cacert := some v }
  | cert => { o with cert := some v }
  | key => { o with key := some v }

end ValueFlag

/-- The options that stand alone (lib.rs:266-273). -/
inductive Switch where
  | insecure
  | waitOnly
  deriving DecidableEq, Repr

namespace Switch

def text : Switch → Text
  | insecure => "--insecure".toList
  | waitOnly => "--wait".toList

def set (o : Options) : Switch → Options
  | insecure => { o with insecure := true }
  | waitOnly => { o with waitOnly := true }

end Switch

/-- The patterns of the loop. -/
inductive Arm where
  | value (f : ValueFlag)
  | switch (s : Switch)
  /-- `"--"`. -/
  | command
  deriving DecidableEq, Repr

def Arm.text : Arm → Text
  | value f => f.text
  | switch s => s.text
  | command => "--".toList

/-- The arms in the order of the source. -/
def arms : List Arm :=
  [.value .url, .value .cacert, .value .cert, .value .key, .switch .insecure, .switch .waitOnly,
    .command]

/-- The arm that an argument takes. -/
def arm (arg : Text) : Option Arm := arms.find? fun a => a.text = arg

/-- The loop (lib.rs:232-281): the options, and what comes after `--` if there is one. -/
def parseFlags (o : Options) : List Text → Except Text (Options × Option (List Text))
  | [] => .ok (o, none)
  | arg :: args =>
    match arm arg with
    | none => .error ("unknown flag ".toList ++ arg)
    | some .command => .ok (o, some args)
    | some (.switch s) => parseFlags (s.set o) args
    | some (.value f) =>
      match args with
      | [] => .error (f.text ++ " needs a value".toList)
      | v :: args => parseFlags (f.set o v) args

/-- One option as it stands on a command line. -/
inductive Item where
  | value (f : ValueFlag) (v : Text)
  | switch (s : Switch)
  deriving DecidableEq

namespace Item

def args : Item → List Text
  | value f v => [f.text, v]
  | switch s => [s.text]

def apply (o : Options) : Item → Options
  | value f v => f.set o v
  | switch s => s.set o

end Item

/-- The end of a command line: nothing, or `--` and the command. -/
def commandArgs : Option (List Text) → List Text
  | none => []
  | some cmd => Arm.command.text :: cmd

theorem arm_eq_some {arg : Text} {a : Arm} : arm arg = some a ↔ arg = a.text := by
  constructor
  · intro h
    exact (of_decide_eq_true (List.find?_some (p := fun a : Arm => a.text = arg) h)).symm
  · rintro rfl
    rcases a with (_ | _ | _ | _) | (_ | _) | _ <;> decide

/-- The command lines that the loop accepts. -/
theorem parseFlags_iff {o o' : Options} {args : List Text} {cmd : Option (List Text)} :
    parseFlags o args = .ok (o', cmd) ↔
      ∃ items : List Item, args = items.flatMap Item.args ++ commandArgs cmd ∧
        o' = items.foldl Item.apply o := by
  constructor
  · intro h
    fun_induction parseFlags o args with
    | case1 o =>
      cases h
      exact ⟨[], rfl, rfl⟩
    | case2 => cases h
    | case3 o arg args harm =>
      cases h
      exact ⟨[], by rw [arm_eq_some.mp harm]; rfl, rfl⟩
    | case4 o arg args s harm ih =>
      obtain ⟨items, rfl, rfl⟩ := ih h
      exact ⟨.switch s :: items, by rw [arm_eq_some.mp harm]; rfl, rfl⟩
    | case5 => cases h
    | case6 o arg f harm v args ih =>
      obtain ⟨items, rfl, rfl⟩ := ih h
      exact ⟨.value f v :: items, by rw [arm_eq_some.mp harm]; rfl, rfl⟩
  · rintro ⟨items, rfl, rfl⟩
    induction items generalizing o with
    | nil =>
      cases cmd with
      | none => rfl
      | some cmd =>
        show parseFlags o (Arm.command.text :: cmd) = _
        rw [parseFlags, arm_eq_some.mpr rfl]
        rfl
    | cons item items ih =>
      cases item with
      | value f v =>
        show parseFlags o ((Arm.value f).text :: v :: (items.flatMap Item.args ++ commandArgs cmd)) = _
        rw [parseFlags, arm_eq_some.mpr rfl]
        exact ih
      | switch s =>
        show parseFlags o ((Arm.switch s).text :: (items.flatMap Item.args ++ commandArgs cmd)) = _
        rw [parseFlags, arm_eq_some.mpr rfl]
        exact ih

/-! ## The probe -/

/-- What a probe over TLS trusts and shows. -/
structure ClientTls where
  /-- The file of the CA, `none` where any certificate is accepted. -/
  roots : Option Text
  client : Option (Text × Text)
  deriving DecidableEq

/-- `Probe` (lib.rs:41-47), `tls` with `tls_config`. -/
structure Probe where
  host : Text
  port : ℕ
  path : Text
  tls : Option ClientTls
  deriving DecidableEq

/-- What loading PEM files comes to: nothing, or the message that the program dies with. -/
structure Pem where
  /-- `load_pem_certs` and `roots.add` (lib.rs:105-110). -/
  roots : Text → Except Text Unit
  /-- The certificates and the key of the client (lib.rs:123-133). -/
  client : Text → Text → Except Text Unit

/-- `tls_config` (lib.rs:96-137). -/
def tlsConfig (pem : Pem) (o : Options) : Except Text ClientTls := do
  let roots ←
    if o.insecure then pure none
    else
      match o.cacert with
      | some ca => (pem.roots ca).map fun _ => some ca
      | none => .error "https probe requires --cacert or --insecure".toList
  let client ←
    match o.cert, o.key with
    | some cert, some key => (pem.client cert key).map fun _ => some (cert, key)
    | _, _ => pure none
  return ⟨roots, client⟩

/-- The scheme of a URL, and the text after it (lib.rs:76-82). -/
def scheme (url : Text) : Option (Bool × Text) :=
  match stripPrefix "https://".toList url with
  | some r => some (true, r)
  | none => (stripPrefix "http://".toList url).map fun r => (false, r)

/-- Host and port (lib.rs:87-95), `none` for a bad port. -/
def hostAndPort (tls : Bool) (hostport : Text) : Option (Text × ℕ) :=
  match rsplitOnce ':' hostport with
  | some (h, p) => (parseUnsigned 16 p).map fun port => (h, port)
  | none => some (hostport, if tls then 443 else 80)

/-- `build_probe` (lib.rs:58-148). -/
def buildProbe (pem : Pem) (o : Options) (url : Text) : Except Text Probe :=
  match stripPrefix "unix://".toList url with
  | some path => .ok ⟨path, 0, [], none⟩
  | none =>
    match scheme url with
    | none => .error ("unsupported URL ".toList ++ url)
    | some (tls, rest) =>
      let (hostport, path) :=
        match splitOnce '/' rest with
        | some (h, p) => (h, '/' :: p)
        | none => (rest, "/".toList)
      match hostAndPort tls hostport with
      | none => .error "bad port".toList
      | some (host, port) =>
        if tls then (tlsConfig pem o).map fun config => ⟨host, port, path, some config⟩
        else .ok ⟨host, port, path, none⟩

/-- What the command line asks for. -/
inductive Plan where
  /-- `--wait`: probe until it succeeds. -/
  | wait (p : Probe)
  /-- Start a component and probe it. -/
  | wrap (p : Probe) (program : Text) (args : List Text)
  deriving DecidableEq

/-- `run` (lib.rs:224-312) up to the start of the component. -/
def plan (pem : Pem) (args : List Text) : Except Text Plan :=
  match parseFlags .none args with
  | .error e => .error e
  | .ok (o, cmd) =>
    match o.url with
    | none => .error "--url is required".toList
    | some url =>
      if o.waitOnly then
        if cmd.isSome then .error "--wait takes no -- command".toList
        else (buildProbe pem o url).map .wait
      else
        match cmd with
        | none => .error "missing -- command".toList
        | some [] => .error "empty command after --".toList
        | some (program :: rest) => (buildProbe pem o url).map fun p => .wrap p program rest

/-! ## What is accepted -/

/-- The scheme of a URL for TCP. -/
def schemeText (tls : Bool) : Text := if tls then "https://".toList else "http://".toList

/-- A host with a port, or alone with the default port. A host may have colons if a port
    follows. -/
inductive HostPort (tls : Bool) : Text → Text → ℕ → Prop
  | given {host digits : Text} {port : ℕ} (hdigits : ':' ∉ digits)
      (hport : parseUnsigned 16 digits = some port) : HostPort tls (host ++ ':' :: digits) host port
  | default {host : Text} (hhost : ':' ∉ host) : HostPort tls host host (if tls then 443 else 80)

/-- The URLs that are accepted, and where they lead. -/
inductive Target (pem : Pem) (o : Options) : Text → Probe → Prop
  | unix (path : Text) : Target pem o ("unix://".toList ++ path) ⟨path, 0, [], none⟩
  | http {hostport host path : Text} {port : ℕ} (hslash : '/' ∉ hostport)
      (hhost : HostPort false hostport host port) (hpath : path = [] ∨ path.head? = some '/') :
      Target pem o (schemeText false ++ hostport ++ path)
        ⟨host, port, if path = [] then "/".toList else path, none⟩
  | https {hostport host path : Text} {port : ℕ} {config : ClientTls} (hslash : '/' ∉ hostport)
      (hhost : HostPort true hostport host port) (hpath : path = [] ∨ path.head? = some '/')
      (hconfig : tlsConfig pem o = .ok config) :
      Target pem o (schemeText true ++ hostport ++ path)
        ⟨host, port, if path = [] then "/".toList else path, some config⟩

theorem scheme_schemeText (tls : Bool) (rest : Text) :
    scheme (schemeText tls ++ rest) = some (tls, rest) := by
  unfold scheme
  cases tls with
  | true =>
    rw [show schemeText true = "https://".toList from rfl, stripPrefix_append]
  | false =>
    have hnot : ¬ "https://".toList <+: "http://".toList ++ rest := by
      rintro ⟨u, hu⟩
      simp at hu
    rw [show schemeText false = "http://".toList from rfl, stripPrefix_eq_none hnot,
      stripPrefix_append]
    rfl

/-- A URL for TCP is none for a Unix socket. -/
theorem stripPrefix_schemeText (tls : Bool) (rest : Text) :
    stripPrefix "unix://".toList (schemeText tls ++ rest) = none := by
  refine stripPrefix_eq_none ?_
  rintro ⟨u, hu⟩
  cases tls with
  | true => simp [schemeText] at hu
  | false => simp [schemeText] at hu

theorem eq_of_scheme {url rest : Text} {tls : Bool} (h : scheme url = some (tls, rest)) :
    url = schemeText tls ++ rest := by
  unfold scheme at h
  cases hs : stripPrefix "https://".toList url with
  | some r =>
    rw [hs] at h
    obtain ⟨rfl, rfl⟩ := Prod.mk.inj (Option.some.inj h)
    exact stripPrefix_eq_some.mp hs
  | none =>
    rw [hs] at h
    obtain ⟨r, hr, heq⟩ := Option.map_eq_some_iff.mp h
    obtain ⟨rfl, rfl⟩ := Prod.mk.inj heq
    exact stripPrefix_eq_some.mp hr

theorem hostAndPort_iff {tls : Bool} {hostport host : Text} {port : ℕ} :
    hostAndPort tls hostport = some (host, port) ↔ HostPort tls hostport host port := by
  constructor
  · intro h
    unfold hostAndPort at h
    rcases rsplitOnce_cases ':' hostport with ⟨hno, hsplit⟩ | ⟨a, b, rfl, hb, hsplit⟩
    · rw [hsplit] at h
      obtain ⟨rfl, rfl⟩ := Prod.mk.inj (Option.some.inj h)
      exact .default hno
    · rw [hsplit] at h
      obtain ⟨n, hn, heq⟩ := Option.map_eq_some_iff.mp h
      obtain ⟨rfl, rfl⟩ := Prod.mk.inj heq
      exact .given hb hn
  · intro h
    unfold hostAndPort
    cases h with
    | given hdigits hport =>
      rw [rsplitOnce_append hdigits]
      simp only [hport, Option.map_some]
    | default hhost => rw [show rsplitOnce ':' hostport = none from if_neg hhost]

/-- Where the path begins. -/
theorem split_path {hostport path : Text} (hslash : '/' ∉ hostport)
    (hpath : path = [] ∨ path.head? = some '/') :
    (match splitOnce '/' (hostport ++ path) with
      | some (h, p) => (h, '/' :: p)
      | none => (hostport ++ path, "/".toList)) =
      (hostport, if path = [] then "/".toList else path) := by
  rcases hpath with rfl | hpath
  · rw [List.append_nil, show splitOnce '/' hostport = none from if_neg hslash]
    rfl
  · obtain ⟨p, rfl⟩ := List.head?_eq_some_iff.mp hpath
    rw [splitOnce_append hslash]
    rfl

/-- The URLs that are accepted. -/
theorem target_iff {pem : Pem} {o : Options} {url : Text} {p : Probe} :
    buildProbe pem o url = .ok p ↔ Target pem o url p := by
  constructor
  · intro h
    unfold buildProbe at h
    cases hunix : stripPrefix "unix://".toList url with
    | some path =>
      rw [hunix] at h
      obtain rfl := Except.ok.inj h
      rw [stripPrefix_eq_some.mp hunix]
      exact .unix path
    | none =>
      rw [hunix] at h
      cases hscheme : scheme url with
      | none =>
        rw [hscheme] at h
        cases h
      | some s =>
        obtain ⟨tls, rest⟩ := s
        rw [hscheme] at h
        obtain ⟨hostport, path, hslash, hpath, rfl⟩ : ∃ hostport path : Text, '/' ∉ hostport ∧
            (path = [] ∨ path.head? = some '/') ∧ rest = hostport ++ path := by
          rcases splitOnce_cases '/' rest with ⟨hno, -⟩ | ⟨a, b, rfl, ha, -⟩
          · exact ⟨rest, [], hno, Or.inl rfl, (List.append_nil _).symm⟩
          · exact ⟨a, '/' :: b, ha, Or.inr rfl, rfl⟩
        simp only [split_path hslash hpath] at h
        rw [eq_of_scheme hscheme, ← List.append_assoc]
        cases hhost : hostAndPort tls hostport with
        | none =>
          rw [hhost] at h
          cases h
        | some hp =>
          obtain ⟨host, port⟩ := hp
          rw [hhost] at h
          have hhost := hostAndPort_iff.mp hhost
          cases tls with
          | false =>
            obtain rfl := Except.ok.inj h
            exact .http hslash hhost hpath
          | true =>
            cases hconfig : tlsConfig pem o with
            | error e =>
              simp only [hconfig] at h
              cases h
            | ok config =>
              simp only [hconfig] at h
              obtain rfl := Except.ok.inj h
              exact .https hslash hhost hpath hconfig
  · intro h
    unfold buildProbe
    cases h with
    | unix path => rw [stripPrefix_append]
    | http hslash hhost hpath =>
      rw [List.append_assoc, stripPrefix_schemeText, scheme_schemeText]
      simp only [split_path hslash hpath, hostAndPort_iff.mpr hhost]
      rfl
    | https hslash hhost hpath hconfig =>
      rw [List.append_assoc, stripPrefix_schemeText, scheme_schemeText]
      simp only [split_path hslash hpath, hostAndPort_iff.mpr hhost, hconfig]
      rfl

/-- What a list of options sets; the last one of a kind counts. -/
def Options.of (items : List Item) : Options := items.foldl Item.apply .none

theorem waitOnly_of_iff {items : List Item} :
    (Options.of items).waitOnly = true ↔ .switch .waitOnly ∈ items := by
  have hfold : ∀ o : Options, (items.foldl Item.apply o).waitOnly = true ↔
      o.waitOnly = true ∨ .switch .waitOnly ∈ items := by
    induction items with
    | nil => simp
    | cons item items ih =>
      intro o
      rw [List.foldl_cons, ih, List.mem_cons, ← or_assoc]
      refine or_congr_left ?_
      rcases item with ⟨_ | _ | _ | _, v⟩ | _ | _ <;> simp [Item.apply, ValueFlag.set, Switch.set]
  refine (hfold .none).trans ⟨fun h => h.resolve_left Bool.false_ne_true, Or.inr⟩

theorem map_eq_ok {α β : Type} {f : α → β} {x : Except Text α} {b : β} :
    x.map f = .ok b ↔ ∃ a, x = .ok a ∧ f a = b := by
  cases x with
  | error e => exact ⟨nofun, nofun⟩
  | ok a => simp [Except.map]

/-- The command lines that are accepted: options in any order, the last one of a kind counts, with
    a URL to probe. Without `--wait` there follow `--` and the command of the component, which is
    passed on as it is, whatever it looks like; with `--wait` nothing follows. -/
theorem plan_iff {pem : Pem} {args : List Text} {pl : Plan} :
    plan pem args = .ok pl ↔
      ∃ items cmd url p, args = items.flatMap Item.args ++ commandArgs cmd ∧
        (Options.of items).url = some url ∧ Target pem (Options.of items) url p ∧
        ((.switch .waitOnly ∈ items ∧ cmd = none ∧ pl = .wait p) ∨
          (.switch .waitOnly ∉ items ∧
            ∃ program rest, cmd = some (program :: rest) ∧ pl = .wrap p program rest)) := by
  unfold plan
  constructor
  · intro h
    cases hflags : parseFlags .none args with
    | error e =>
      rw [hflags] at h
      cases h
    | ok r =>
      obtain ⟨o, cmd⟩ := r
      rw [hflags] at h
      obtain ⟨items, rfl, rfl⟩ := parseFlags_iff.mp hflags
      have hwait := @waitOnly_of_iff items
      simp only at h
      cases hurl : (Options.of items).url with
      | none =>
        rw [show items.foldl Item.apply .none = Options.of items from rfl, hurl] at h
        cases h
      | some url =>
        rw [show items.foldl Item.apply .none = Options.of items from rfl, hurl] at h
        simp only at h
        split_ifs at h with hmode hcmd
        · obtain rfl := Option.not_isSome_iff_eq_none.mp hcmd
          obtain ⟨p, hp, rfl⟩ := map_eq_ok.mp h
          exact ⟨items, none, url, p, rfl, hurl, target_iff.mp hp, Or.inl ⟨hwait.mp hmode, rfl, rfl⟩⟩
        · rcases cmd with _ | _ | ⟨program, rest⟩
          · cases h
          · cases h
          · obtain ⟨p, hp, rfl⟩ := map_eq_ok.mp h
            exact ⟨items, some (program :: rest), url, p, rfl, hurl, target_iff.mp hp,
              Or.inr ⟨fun hmem => hmode (hwait.mpr hmem), program, rest, rfl, rfl⟩⟩
  · rintro ⟨items, cmd, url, p, rfl, hurl, htarget, hplan⟩
    rw [parseFlags_iff.mpr ⟨items, rfl, rfl⟩]
    have hprobe := target_iff.mpr htarget
    simp only [show items.foldl Item.apply .none = Options.of items from rfl, hurl]
    rcases hplan with ⟨hmem, rfl, rfl⟩ | ⟨hmem, program, rest, rfl, rfl⟩
    · rw [if_pos (waitOnly_of_iff.mpr hmem), hprobe]
      rfl
    · rw [if_neg (mt waitOnly_of_iff.mp hmem), hprobe]
      rfl

end Kubenyx.Ready
