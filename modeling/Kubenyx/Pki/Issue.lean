import Kubenyx.Common.RustStr
import Kubenyx.Pki.Shared

/-!
# Issuing leaves

Model of `Issue::ensure` (lib.rs:306-405). A leaf is three files: its key, its
certificate and a fingerprint, the text that records the parameters it was issued
with. A run leaves them alone if the fingerprint is the one it wants and the
certificate is not about to expire, and otherwise writes all three, in this order.

* `ensure_of_current`, `ensure_of_stale`: what a run writes, read off the directory
  before it.
* `right_iff`: in any sequence of runs with any parameters, each possibly killed after
  any of its writes, the leaf that a completed run leaves is right exactly when, if it
  was left alone, the last run that wrote to it wrote the certificate too and had the
  same parameters.
-/

namespace Kubenyx.Pki

open Kubenyx.Common

variable {R : Rcgen}

/-! ## The program -/

/-- `Issue` (lib.rs:306-310), without the directory. -/
structure Issue where
  renewSecs : ℤ
  leafDays : ℤ

/-- The other parameters of `Issue::ensure` (lib.rs:316-324). -/
structure Leaf (R : Rcgen) where
  issuer : Issuer R
  name : Text
  cn : Text
  org : Option Text
  ekus : List Eku
  san : List Text

/-- `{eku}` (lib.rs:338-342). -/
def Eku.text : Eku → Text
  | .serverAuth => "serverAuth".toList
  | .clientAuth => "clientAuth".toList
  | _ => "other".toList

/-- `join(",")`. -/
def joinComma (ts : List Text) : Text := List.intercalate [','] ts

/-- `crt_p` (lib.rs:327). -/
def crtFile (name : Text) : File := inPki (name ++ ".crt".toList)

/-- `key_p` (lib.rs:328). -/
def keyFile (name : Text) : File := inPki (name ++ ".key".toList)

/-- `name.replace('/', "_")`. -/
def flatten (name : Text) : Text := name.map fun c => if c = '/' then '_' else c

/-- `fp_p` (lib.rs:329). -/
def fpFile (name : Text) : File := inPki (".fp.".toList ++ flatten name)

namespace Leaf

/-- `subject` (lib.rs:331-334). -/
def subjectText (l : Leaf R) : Text :=
  match l.org with
  | some o => "/O=".toList ++ o ++ "/CN=".toList ++ l.cn
  | none => "/CN=".toList ++ l.cn

/-- `want` (lib.rs:335-351). -/
def want (l : Leaf R) : Text :=
  l.subjectText ++ "|".toList ++ joinComma (l.ekus.map Eku.text) ++ "|".toList ++
    joinComma l.san ++ "|".toList ++ l.issuer.name ++ ":".toList ++ hex16 (fnv1a (utf8 l.issuer.pem))

end Leaf

/-- One entry of `san` (lib.rs:384-397). -/
def parseSan (s : Text) : Except Exit San :=
  if "DNS:".toList <+: s then
    if (s.drop 4).all fun c => c.toNat < 128 then .ok (.dnsName (s.drop 4))
    else .error (.panic "dns san".toList)
  else if "IP:".toList <+: s then
    match IpAddr.parse (s.drop 3) with
    | some addr => .ok (.ipAddress addr)
    | none => .error (.die ("bad IP SAN ".toList ++ s.drop 3))
  else .error (.die ("bad SAN ".toList ++ s ++ " (want DNS:/IP: prefix)".toList))

/-- The subject alternative names, up to the first bad entry. -/
def parseSans (san : List Text) : Except Exit (List San) := san.mapM parseSan

/-- The certificate of a leaf (lib.rs:368-400). -/
def leafCert (R : Rcgen) (l : Leaf R) (g : Gen R) (notAfter : ℤ) (sans : List San) : Cert R.Pub where
  subject := ⟨l.org, l.cn⟩
  issuer := l.issuer.subject
  signer := R.pub l.issuer.key
  pub := R.pub g.key
  isCa := false
  serial := g.serial
  notBefore := g.before.secs - 300
  notAfter := notAfter
  keyUsages := [.digitalSignature, .keyEncipherment]
  ekus := l.ekus
  sans := sans

/-- The test that leaves the files alone (lib.rs:353-365), given what was read. -/
def upToDate (R : Rcgen) (i : Issue) (l : Leaf R) (now : ℤ) (crt : Except IoError Text)
    (keyExists : Bool) (fp : Except IoError Text) : Bool :=
  match crt, keyExists, fp with
  | .ok crtPem, true, .ok prev =>
    trimEnd prev = l.want && (notAfterTs R crtPem).elim false fun na => na > now + i.renewSecs
  | _, _, _ => false

/-- `Issue::ensure` (lib.rs:316-404). -/
def ensure (R : Rcgen) (i : Issue) (l : Leaf R) (now : Clock) (g : Gen R) : Prog Unit := do
  let crt ← readToString (crtFile l.name)
  let keyExists ← pathExists (keyFile l.name)
  let fp ← readToString (fpFile l.name)
  if upToDate R i l now.secs crt keyExists fp then return
  match g.after.addDays i.leafDays with
  | none => panic "resulting value is out of range".toList
  | some notAfter =>
    match parseSans l.san with
    | .error e => .fail e
    | .ok sans =>
      writePrivate (keyFile l.name) (R.keyPem g.key)
      writePrivate (crtFile l.name) (R.certPem (leafCert R l g notAfter sans))
      writePrivate (fpFile l.name) l.want

/-! ## What it writes -/

/-- The test, on a directory. -/
def leafCurrent (R : Rcgen) (i : Issue) (l : Leaf R) (now : Clock) (d : Disk) : Bool :=
  upToDate R i l now.secs (decodeText (d (crtFile l.name))) (d (keyFile l.name)).isSome
    (decodeText (d (fpFile l.name)))

/-- The certificate that a run issues, if its dates and its SANs are valid. -/
def issued (R : Rcgen) (i : Issue) (l : Leaf R) (g : Gen R) : Except Exit (Cert R.Pub) :=
  match g.after.addDays i.leafDays with
  | none => .error (.panic "resulting value is out of range".toList)
  | some notAfter => (parseSans l.san).map (leafCert R l g notAfter)

/-- The writes of a run that issues `c`. -/
def leafWrites (l : Leaf R) (g : Gen R) (c : Cert R.Pub) : List (File × Content) :=
  [(keyFile l.name, .text (R.keyPem g.key)), (crtFile l.name, .text (R.certPem c)),
    (fpFile l.name, .text l.want)]

theorem ensure_of_current {i : Issue} {l : Leaf R} {now : Clock} {g : Gen R} {d : Disk}
    (h : leafCurrent R i l now d = true) :
    (ensure R i l now g).writes d = [] ∧ ((ensure R i l now g).run d).1 = .ok () := by
  unfold ensure
  rw [writes_readToString_bind, run_readToString_bind, writes_pathExists_bind, run_pathExists_bind,
    writes_readToString_bind, run_readToString_bind]
  unfold leafCurrent at h
  rw [if_pos h]
  exact ⟨rfl, rfl⟩

theorem ensure_of_stale {i : Issue} {l : Leaf R} {now : Clock} {g : Gen R} {d : Disk}
    (h : leafCurrent R i l now d = false) :
    (ensure R i l now g).writes d =
        (match issued R i l g with
        | .ok c => leafWrites l g c
        | .error _ => []) ∧
      ((ensure R i l now g).run d).1 = (issued R i l g).map fun _ => () := by
  unfold ensure issued
  rw [writes_readToString_bind, run_readToString_bind, writes_pathExists_bind, run_pathExists_bind,
    writes_readToString_bind, run_readToString_bind]
  unfold leafCurrent at h
  rw [if_neg (by rw [h]; exact Bool.false_ne_true)]
  cases g.after.addDays i.leafDays with
  | none => exact ⟨rfl, rfl⟩
  | some notAfter =>
    cases parseSans l.san with
    | error e => exact ⟨rfl, rfl⟩
    | ok sans => exact ⟨rfl, rfl⟩

/-- What it can write, whatever it reads. -/
theorem ensure_allWrites (i : Issue) (l : Leaf R) (now : Clock) (g : Gen R) :
    (ensure R i l now g).AllWrites fun f _ =>
      f = keyFile l.name ∨ f = crtFile l.name ∨ f = fpFile l.name := by
  unfold ensure
  refine (allWrites_readToString _).bind fun crt => (allWrites_pathExists _).bind fun keyExists =>
    (allWrites_readToString _).bind fun fp => ?_
  cases upToDate R i l now.secs crt keyExists fp with
  | true => trivial
  | false =>
    cases g.after.addDays i.leafDays with
    | none => trivial
    | some notAfter =>
      cases parseSans l.san with
      | error e => trivial
      | ok sans => exact ⟨Or.inl rfl, Or.inr (Or.inl rfl), Or.inr (Or.inr rfl), trivial⟩

/-! ## The three files -/

theorem keyFile_ne_crtFile (name : Text) : keyFile name ≠ crtFile name := by
  intro h
  exact absurd (List.append_cancel_left (inPki_injective h)) (by decide)

/-- The path of the fingerprint has one `f` more than the name of the leaf. -/
theorem count_fpFile (name : Text) : (fpFile name).path.count 'f' = name.count 'f' + 1 := by
  have hmap : ∀ t : Text, (t.map fun c => if c = '/' then '_' else c).count 'f' = t.count 'f' := by
    intro t
    induction t with
    | nil => rfl
    | cons c t ih =>
      rw [List.map_cons, List.count_cons, List.count_cons, ih]
      by_cases hc : c = '/'
      · subst hc
        rfl
      · rw [if_neg hc]
  show (".fp.".toList ++ name.map fun c => if c = '/' then '_' else c).count 'f' = _
  rw [List.count_append, hmap, Nat.add_comm]
  rfl

theorem fpFile_ne_keyFile (name : Text) : fpFile name ≠ keyFile name := by
  intro h
  have hcount := count_fpFile name
  rw [h, keyFile, inPki, List.count_append] at hcount
  have : ".key".toList.count 'f' = 0 := by decide
  omega

theorem fpFile_ne_crtFile (name : Text) : fpFile name ≠ crtFile name := by
  intro h
  have hcount := count_fpFile name
  rw [h, crtFile, inPki, List.count_append] at hcount
  have : ".crt".toList.count 'f' = 0 := by decide
  omega

/-! ## Sequences of runs -/

/-- One run of `ensure` for the leaf `name`, killed after `stop` writes or not killed.
    The clock that dates the certificate is read after the one of the test. -/
structure LeafRun (R : Rcgen) (name : Text) where
  issue : Issue
  leaf : Leaf R
  name_eq : leaf.name = name
  now : Clock
  gen : Gen R
  now_le : now.secs ≤ gen.after.secs
  stop : Option ℕ

variable {name : Text}

namespace LeafRun

/-- The writes that the run gets to make. -/
def writes (r : LeafRun R name) (d : Disk) : List (File × Content) :=
  let ws := (ensure R r.issue r.leaf r.now r.gen).writes d
  r.stop.elim ws ws.take

/-- The directory after the run. -/
def after (r : LeafRun R name) (d : Disk) : Disk := d.apply (r.writes d)

/-- The run is not killed and returns. -/
def Completes (r : LeafRun R name) (d : Disk) : Prop :=
  r.stop = none ∧ ((ensure R r.issue r.leaf r.now r.gen).run d).1 = .ok ()

/-- The run leaves the files alone. -/
def skips (r : LeafRun R name) (d : Disk) : Bool := leafCurrent R r.issue r.leaf r.now d

/-- Two runs for the same subject, EKUs, SANs and issuer. -/
structure SameContent (r s : LeafRun R name) : Prop where
  org : r.leaf.org = s.leaf.org
  cn : r.leaf.cn = s.leaf.cn
  ekus : r.leaf.ekus = s.leaf.ekus
  sans : parseSans r.leaf.san = parseSans s.leaf.san
  issuer : r.leaf.issuer.subject = s.leaf.issuer.subject
  issuerKey : r.leaf.issuer.key = s.leaf.issuer.key

/-- The leaf is what the run wants: a certificate from its issuer with its subject,
    EKUs and SANs, not about to expire, and the private key of it. -/
def Right (r : LeafRun R name) (d : Disk) : Prop :=
  ∃ k c, d (keyFile name) = some (.text (R.keyPem k)) ∧
    d (crtFile name) = some (.text (R.certPem c)) ∧ c.pub = R.pub k ∧
    c.subject = ⟨r.leaf.org, r.leaf.cn⟩ ∧ c.ekus = r.leaf.ekus ∧
    parseSans r.leaf.san = .ok c.sans ∧ c.issuer = r.leaf.issuer.subject ∧
    c.signer = R.pub r.leaf.issuer.key ∧ r.now.secs + r.issue.renewSecs < c.notAfter

end LeafRun

/-- The directory, and the last run that wrote to the leaf with the number of files it
    wrote. -/
structure LeafState (R : Rcgen) (name : Text) where
  disk : Disk
  last : Option (LeafRun R name × ℕ)

namespace LeafState

def step (σ : LeafState R name) (r : LeafRun R name) : LeafState R name where
  disk := r.after σ.disk
  last := if r.writes σ.disk = [] then σ.last else some (r, (r.writes σ.disk).length)

/-- A sequence of runs, from a directory. -/
def exec (d : Disk) (rs : List (LeafRun R name)) : LeafState R name :=
  rs.foldl step ⟨d, none⟩

/-- The files of the leaf are as the last writer and the runs before it left them. The
    keys of all runs so far are in `used`. -/
def Tracked (used : List R.Key) (σ : LeafState R name) : Prop :=
  match σ.last with
  | none => σ.disk (crtFile name) = none
  | some (w, n) =>
    w.gen.key ∈ used ∧ σ.disk (keyFile name) = some (.text (R.keyPem w.gen.key)) ∧
    ((2 ≤ n ∧ ∃ c, issued R w.issue w.leaf w.gen = .ok c ∧
        σ.disk (crtFile name) = some (.text (R.certPem c))) ∨
      (n < 2 ∧ (σ.disk (crtFile name) = none ∨ ∃ k c, k ∈ used ∧ k ≠ w.gen.key ∧
        c.pub = R.pub k ∧ σ.disk (crtFile name) = some (.text (R.certPem c)))))

end LeafState

/-- A fingerprint ends in a hexadecimal digit, so that trimming leaves it as it is. -/
theorem trimEnd_want (l : Leaf R) : trimEnd l.want = l.want := by
  have hdigit : ∀ n < 16, isWhitespace (Nat.digitChar n) = false := by decide
  have hlast : hex16 (fnv1a (utf8 l.issuer.pem)) = (List.range 15).map (fun i => Nat.digitChar
      ((fnv1a (utf8 l.issuer.pem)).toNat / 16 ^ (15 - i) % 16)) ++
        [Nat.digitChar ((fnv1a (utf8 l.issuer.pem)).toNat / 1 % 16)] := rfl
  unfold trimEnd Leaf.want
  rw [hlast, ← List.append_assoc]
  refine List.rdropWhile_concat_neg _ _ _ ?_
  rw [hdigit _ (Nat.mod_lt _ (by omega))]
  exact Bool.false_ne_true

/-- What an issued certificate says. -/
theorem issued_cert {i : Issue} {l : Leaf R} {g : Gen R} {c : Cert R.Pub}
    (h : issued R i l g = .ok c) :
    c.pub = R.pub g.key ∧ c.subject = ⟨l.org, l.cn⟩ ∧ c.ekus = l.ekus ∧
      parseSans l.san = .ok c.sans ∧ c.issuer = l.issuer.subject ∧
      c.signer = R.pub l.issuer.key ∧ c.notAfter = g.after.secs + i.leafDays * DAY := by
  unfold issued Clock.addDays at h
  split_ifs at h with hrange
  · cases hs : parseSans l.san with
    | error e =>
      rw [hs] at h
      cases h
    | ok sans =>
      rw [hs] at h
      obtain rfl := Except.ok.inj h
      exact ⟨rfl, rfl, rfl, rfl, rfl, rfl, rfl⟩

namespace LeafRun

theorem writes_of_skips {r : LeafRun R name} {d : Disk} (hs : r.skips d = true) :
    r.writes d = [] := by
  unfold writes
  rw [(ensure_of_current hs).1]
  cases r.stop <;> simp

theorem after_of_skips {r : LeafRun R name} {d : Disk} (hs : r.skips d = true) : r.after d = d := by
  unfold after
  rw [writes_of_skips hs, Files.apply_nil]

/-- A run that does not leave the files alone writes the first files of the
    certificate that it issues. -/
theorem writes_of_issued {r : LeafRun R name} {d : Disk} {c : Cert R.Pub}
    (hs : r.skips d = false) (hi : issued R r.issue r.leaf r.gen = .ok c) :
    r.writes d = (leafWrites r.leaf r.gen c).take (r.stop.getD 3) := by
  have hw := (ensure_of_stale (g := r.gen) hs).1
  rw [hi] at hw
  unfold writes
  rw [hw]
  cases r.stop <;> rfl

/-- A run writes nothing, or the first files of a certificate that it issues. -/
theorem writes_cases (r : LeafRun R name) (d : Disk) :
    r.writes d = [] ∨ ∃ c m, issued R r.issue r.leaf r.gen = .ok c ∧ 1 ≤ m ∧
      r.writes d = (leafWrites r.leaf r.gen c).take m := by
  rcases hs : r.skips d with _ | _
  · rcases hi : issued R r.issue r.leaf r.gen with e | c
    · left
      have hw := (ensure_of_stale (g := r.gen) hs).1
      rw [hi] at hw
      unfold writes
      rw [hw]
      cases r.stop <;> simp
    · have hw := writes_of_issued hs hi
      rcases Nat.eq_zero_or_pos (r.stop.getD 3) with hm | hm
      · left
        rw [hw, hm]
        rfl
      · exact Or.inr ⟨c, r.stop.getD 3, rfl, hm, hw⟩
  · exact Or.inl (writes_of_skips hs)

/-- A completed run that does not leave the files alone writes all three. -/
theorem writes_of_completes {r : LeafRun R name} {d : Disk} (h : r.Completes d)
    (hs : r.skips d = false) :
    ∃ c, issued R r.issue r.leaf r.gen = .ok c ∧ r.writes d = leafWrites r.leaf r.gen c := by
  obtain ⟨hstop, hok⟩ := h
  rw [(ensure_of_stale (g := r.gen) hs).2] at hok
  rcases hi : issued R r.issue r.leaf r.gen with e | c
  · rw [hi] at hok
    cases hok
  · refine ⟨c, rfl, ?_⟩
    rw [writes_of_issued hs hi, hstop]
    rfl

end LeafRun

/-- What the first files of a leaf leave on the disk. -/
theorem apply_leafWrites {l : Leaf R} {g : Gen R} {c : Cert R.Pub} (hname : l.name = name)
    (d : Disk) {m : ℕ} (hm : 1 ≤ m) :
    d.apply ((leafWrites l g c).take m) (keyFile name) = some (.text (R.keyPem g.key)) ∧
      d.apply ((leafWrites l g c).take m) (crtFile name) =
        (if 2 ≤ m then some (.text (R.certPem c)) else d (crtFile name)) ∧
      d.apply ((leafWrites l g c).take m) (fpFile name) =
        if 3 ≤ m then some (.text l.want) else d (fpFile name) := by
  subst hname
  have h1 := keyFile_ne_crtFile l.name
  have h2 := fpFile_ne_keyFile l.name
  have h3 := fpFile_ne_crtFile l.name
  match m, hm with
  | 1, _ =>
    refine ⟨Files.set_self .., ?_, ?_⟩
    · exact Files.set_of_ne _ _ h1.symm
    · exact Files.set_of_ne _ _ h2
  | 2, _ =>
    refine ⟨?_, Files.set_self .., ?_⟩
    · exact (Files.set_of_ne _ _ h1).trans (Files.set_self ..)
    · exact (Files.set_of_ne _ _ h3).trans (Files.set_of_ne _ _ h2)
  | m + 3, _ =>
    have htake : (leafWrites l g c).take (m + 3) = leafWrites l g c := by simp [leafWrites]
    rw [htake, if_pos (by omega), if_pos (by omega)]
    refine ⟨?_, ?_, Files.set_self ..⟩
    · refine (Files.set_of_ne _ _ h2.symm).trans ?_
      exact (Files.set_of_ne _ _ h1).trans (Files.set_self ..)
    · exact (Files.set_of_ne _ _ h3.symm).trans (Files.set_self ..)

namespace LeafState

/-- The step of a run that writes. -/
theorem last_step {σ : LeafState R name} {r : LeafRun R name} {c : Cert R.Pub} {m : ℕ} (hm : 1 ≤ m)
    (hw : r.writes σ.disk = (leafWrites r.leaf r.gen c).take m) :
    (σ.step r).last = some (r, min m 3) := by
  have hlen : (r.writes σ.disk).length = min m 3 := by
    rw [hw, List.length_take]
    rfl
  have hne : r.writes σ.disk ≠ [] := by
    rw [← List.length_pos_iff, hlen]
    omega
  unfold step
  rw [if_neg hne, hlen]

/-- The certificate on the disk is for the key of some run. -/
theorem Tracked.crt_cases {used : List R.Key} {σ : LeafState R name} (h : σ.Tracked used) :
    σ.disk (crtFile name) = none ∨ ∃ k c, k ∈ used ∧ c.pub = R.pub k ∧
      σ.disk (crtFile name) = some (.text (R.certPem c)) := by
  unfold Tracked at h
  cases hlast : σ.last with
  | none =>
    rw [hlast] at h
    exact Or.inl h
  | some p =>
    rw [hlast] at h
    obtain ⟨hmem, -, ⟨-, c, hi, hc⟩ | ⟨-, hnone | ⟨k, c, hk, -, hpub, hc⟩⟩⟩ := h
    · exact Or.inr ⟨p.1.gen.key, c, hmem, (issued_cert hi).1, hc⟩
    · exact Or.inl hnone
    · exact Or.inr ⟨k, c, hk, hpub, hc⟩

/-- A step of the sequence with a key that was not used before. -/
theorem tracked_step {used : List R.Key} {σ : LeafState R name} {r : LeafRun R name}
    (hσ : σ.Tracked used) (hfresh : r.gen.key ∉ used) : (σ.step r).Tracked (used ++ [r.gen.key]) := by
  rcases r.writes_cases σ.disk with hw | ⟨c, m, hi, hm, hw⟩
  · -- Nothing is written: only `used` grows.
    have hstep : σ.step r = σ := by
      unfold step LeafRun.after
      rw [hw, if_pos rfl, Files.apply_nil]
    rw [hstep]
    unfold Tracked at hσ ⊢
    cases hlast : σ.last with
    | none => rwa [hlast] at hσ
    | some p =>
      rw [hlast] at hσ
      obtain ⟨hmem, hkey, hcrt⟩ := hσ
      refine ⟨List.mem_append_left _ hmem, hkey, hcrt.imp_right ?_⟩
      rintro ⟨hn, hnone | ⟨k, c, hk, hne, hpub, hc⟩⟩
      · exact ⟨hn, Or.inl hnone⟩
      · exact ⟨hn, Or.inr ⟨k, c, List.mem_append_left _ hk, hne, hpub, hc⟩⟩
  · obtain ⟨hkey, hcrt, -⟩ := apply_leafWrites r.name_eq σ.disk (g := r.gen) (c := c) hm
    rw [← hw] at hkey hcrt
    unfold Tracked
    rw [last_step hm hw]
    refine ⟨List.mem_append_right _ (List.mem_singleton_self _), hkey, ?_⟩
    by_cases h2 : 2 ≤ m
    · rw [if_pos h2] at hcrt
      exact Or.inl ⟨by omega, c, hi, hcrt⟩
    · -- Only the key is written: the certificate is that of an earlier run.
      rw [if_neg h2] at hcrt
      refine Or.inr ⟨by omega, ?_⟩
      have hsame : (σ.step r).disk (crtFile name) = σ.disk (crtFile name) := hcrt
      rw [hsame]
      exact hσ.crt_cases.imp_right fun ⟨k, c', hk, hpub, hc'⟩ =>
        ⟨k, c', List.mem_append_left _ hk, fun heq => hfresh (heq ▸ hk), hpub, hc'⟩

@[simp] theorem exec_append_singleton (d : Disk) (rs : List (LeafRun R name)) (r : LeafRun R name) :
    exec d (rs ++ [r]) = (exec d rs).step r := by
  unfold exec
  rw [List.foldl_append]
  rfl

/-- Runs with fresh keys, from a directory without a certificate. -/
theorem tracked_exec {d : Disk} (hd : d (crtFile name) = none) {rs : List (LeafRun R name)}
    (hfresh : (rs.map (·.gen.key)).Nodup) : (exec d rs).Tracked (rs.map (·.gen.key)) := by
  induction rs using List.reverseRecOn with
  | nil => exact hd
  | append_singleton rs r ih =>
    rw [List.map_append] at hfresh ⊢
    obtain ⟨hrs, -, hdisj⟩ := List.nodup_append.mp hfresh
    rw [exec_append_singleton]
    refine tracked_step (ih hrs) fun hmem => ?_
    exact hdisj _ hmem _ (List.mem_singleton_self r.gen.key) rfl

end LeafState

namespace LeafRun

/-- What the test of the time says about the certificate that it leaves alone. -/
theorem notAfter_of_skips (hR : R.Lawful) {r : LeafRun R name} {d : Disk} {c : Cert R.Pub}
    (hs : r.skips d = true) (hc : d (crtFile name) = some (.text (R.certPem c))) :
    r.now.secs + r.issue.renewSecs < c.notAfter := by
  unfold skips leafCurrent at hs
  rw [r.name_eq, hc] at hs
  cases hkey : (d (keyFile name)).isSome with
  | false =>
    rw [hkey] at hs
    exact absurd hs (by simp [decodeText, upToDate])
  | true =>
    cases hfp : decodeText (d (fpFile name)) with
    | error e =>
      rw [hkey, hfp] at hs
      exact absurd hs (by simp [decodeText, upToDate])
    | ok prev =>
      rw [hkey, hfp] at hs
      simp only [decodeText, upToDate, notAfterTs_certPem hR, Option.elim_some, Bool.and_eq_true,
        decide_eq_true_eq] at hs
      exact hs.2

/-- The files of a run that wrote all three are what it wants. -/
theorem right_of_issued {r : LeafRun R name} {d : Disk} {c : Cert R.Pub}
    (hdays : r.issue.renewSecs < r.issue.leafDays * DAY)
    (hi : issued R r.issue r.leaf r.gen = .ok c) (hw : r.writes d = leafWrites r.leaf r.gen c) :
    r.Right (r.after d) := by
  obtain ⟨hkey, hcrt, -⟩ := apply_leafWrites r.name_eq d (g := r.gen) (c := c) (m := 3) (by omega)
  obtain ⟨hpub, hsub, heku, hsan, hiss, hsig, hna⟩ := issued_cert hi
  have hafter : r.after d = d.apply ((leafWrites r.leaf r.gen c).take 3) := by
    unfold after
    rw [hw]
    rfl
  rw [hafter]
  refine ⟨r.gen.key, c, hkey, hcrt, hpub, hsub, heku, hsan, hiss, hsig, ?_⟩
  have := r.now_le
  omega

/-- A run whose dates and SANs are valid and that is not killed completes. -/
theorem completes_of_issued {r : LeafRun R name} {c : Cert R.Pub} (hstop : r.stop = none)
    (hi : issued R r.issue r.leaf r.gen = .ok c) (d : Disk) : r.Completes d := by
  refine ⟨hstop, ?_⟩
  rcases hs : r.skips d with _ | _
  · rw [(ensure_of_stale hs).2, hi]
    rfl
  · exact (ensure_of_current hs).2

/-- A run leaves the files alone that a run with the same fingerprint issued. -/
theorem skips_of_files (hR : R.Lawful) {r : LeafRun R name} {d : Disk} {k : Text} {c : Cert R.Pub}
    (hkey : d (keyFile name) = some (.text k)) (hcrt : d (crtFile name) = some (.text (R.certPem c)))
    (hfp : d (fpFile name) = some (.text r.leaf.want))
    (hdue : r.now.secs + r.issue.renewSecs < c.notAfter) : r.skips d = true := by
  unfold skips leafCurrent
  rw [r.name_eq, hkey, hcrt, hfp]
  simp only [decodeText, upToDate, Option.isSome_some, notAfterTs_certPem hR, Option.elim_some, trimEnd_want,
    decide_true, Bool.true_and, decide_eq_true_eq]
  exact hdue

theorem not_skips_of_fp {r : LeafRun R name} {d : Disk} {fp : Text}
    (hfp : d (fpFile name) = some (.text fp)) (hne : trimEnd fp ≠ r.leaf.want) :
    r.skips d = false := by
  unfold skips leafCurrent
  rw [r.name_eq, hfp]
  unfold upToDate
  split
  next heq =>
    obtain rfl := Except.ok.inj heq
    rw [decide_eq_false hne, Bool.false_and]
  next => rfl

/-- When a leaf that is left alone is right. -/
theorem right_of_skips_iff (hR : R.Lawful) {used : List R.Key} {σ : LeafState R name}
    (hσ : σ.Tracked used) {r : LeafRun R name} (hs : r.skips σ.disk = true) :
    r.Right σ.disk ↔ ∃ w n, σ.last = some (w, n) ∧ 2 ≤ n ∧ w.SameContent r := by
  unfold LeafState.Tracked at hσ
  constructor
  · rintro ⟨k, c, hkey, hcrt, hpub, hsub, heku, hsan, hiss, hsig, hna⟩
    rcases hlast : σ.last with _ | ⟨w, n⟩
    · rw [hlast, hcrt] at hσ
      cases hσ
    · rw [hlast, hcrt, hkey] at hσ
      obtain ⟨-, hwkey, ⟨hn, c', hi, hc'⟩ | ⟨-, hnone | ⟨k', c', -, hne, hpub', hc'⟩⟩⟩ := hσ
      · obtain rfl := hR.certPem_injective (Content.text.inj (Option.some.inj hc'))
        obtain ⟨-, hsub', heku', hsan', hiss', hsig', -⟩ := issued_cert hi
        have hname := Name.mk.inj (hsub'.symm.trans hsub)
        refine ⟨w, n, rfl, hn, hname.1, hname.2, heku'.symm.trans heku, hsan'.trans hsan.symm,
          hiss'.symm.trans hiss, hR.pub_injective (hsig'.symm.trans hsig)⟩
      · cases hnone
      · -- The certificate is of an earlier key than the one on the disk.
        obtain rfl := hR.certPem_injective (Content.text.inj (Option.some.inj hc'))
        have hk : k = w.gen.key := hR.keyPem_injective (Content.text.inj (Option.some.inj hwkey))
        exact absurd (hR.pub_injective (hpub'.symm.trans hpub)) (hk ▸ hne)
  · rintro ⟨w, n, hlast, hn, hsame⟩
    rw [hlast] at hσ
    obtain ⟨-, hwkey, ⟨-, c, hi, hc⟩ | ⟨hlt, -⟩⟩ := hσ
    · obtain ⟨hpub, hsub, heku, hsan, hiss, hsig, -⟩ := issued_cert hi
      refine ⟨w.gen.key, c, hwkey, hc, hpub, ?_, heku.trans hsame.ekus, hsame.sans ▸ hsan,
        hiss.trans hsame.issuer, ?_, notAfter_of_skips hR hs hc⟩
      · rw [hsub, hsame.org, hsame.cn]
      · rw [hsig, hsame.issuerKey]
    · omega

end LeafRun

/-- After any sequence of runs, killed or not, the leaf that a completed run leaves is
    right exactly when, if the run leaves the files alone, the last run that wrote to
    them got to its certificate and had the same parameters. -/
theorem right_iff (hR : R.Lawful) (d : Disk) (rs : List (LeafRun R name)) (r : LeafRun R name)
    (hd : d (crtFile name) = none) (hfresh : (rs.map (·.gen.key)).Nodup)
    (hdays : r.issue.renewSecs < r.issue.leafDays * DAY)
    (hcomp : r.Completes (LeafState.exec d rs).disk) :
    r.Right (r.after (LeafState.exec d rs).disk) ↔
      (r.skips (LeafState.exec d rs).disk = true →
        ∃ w n, (LeafState.exec d rs).last = some (w, n) ∧ 2 ≤ n ∧ w.SameContent r) := by
  have htracked := LeafState.tracked_exec hd hfresh
  generalize LeafState.exec d rs = σ at htracked hcomp ⊢
  rcases hs : r.skips σ.disk with _ | _
  · obtain ⟨c, hi, hw⟩ := LeafRun.writes_of_completes hcomp hs
    refine ⟨fun _ h => absurd h Bool.false_ne_true, fun _ => ?_⟩
    exact LeafRun.right_of_issued hdays hi hw
  · rw [LeafRun.after_of_skips hs, LeafRun.right_of_skips_iff hR htracked hs]
    exact ⟨fun h _ => h, fun h => h rfl⟩

namespace LeafRun

/-- A run for a kubelet leaf of one year, renewed a month before its end. -/
def sample (cn : Text) (key : ℕ) (stop : Option ℕ) : LeafRun Rcgen.unary "kubelet".toList where
  issue := ⟨30 * DAY, 365⟩
  leaf :=
    { issuer := ⟨⟨none, "kubenyx-ca".toList⟩, (0 : ℕ), "kubenyx-ca".toList, "ca".toList⟩
      name := "kubelet".toList
      cn := cn
      org := some "system:nodes".toList
      ekus := [.clientAuth]
      san := [] }
  name_eq := rfl
  now := Clock.zero
  gen := Gen.sample key
  now_le := le_rfl
  stop := stop

/-- The certificate that it issues. -/
def sampleCert (cn : Text) (key : ℕ) : Cert ℕ :=
  leafCert Rcgen.unary (sample cn key none).leaf (Gen.sample key) (365 * DAY) []

theorem issued_sample (cn : Text) (key : ℕ) (stop : Option ℕ) :
    issued Rcgen.unary (sample cn key stop).issue (sample cn key stop).leaf (sample cn key stop).gen =
      .ok (sampleCert cn key) := rfl

end LeafRun

namespace LeafState

/-- One run, from an empty directory. -/
theorem exec_sample (cn : Text) (key : ℕ) :
    let σ := exec (fun _ => none) [LeafRun.sample cn key none]
    σ.disk (keyFile "kubelet".toList) = some (.text (Rcgen.unary.keyPem key)) ∧
      σ.disk (crtFile "kubelet".toList) =
        some (.text (Rcgen.unary.certPem (LeafRun.sampleCert cn key))) ∧
      σ.disk (fpFile "kubelet".toList) = some (.text (LeafRun.sample cn key none).leaf.want) ∧
      σ.last = some (LeafRun.sample cn key none, 3) := by
  have hw : (LeafRun.sample cn key none).writes (fun _ => none) = _ :=
    LeafRun.writes_of_issued rfl (LeafRun.issued_sample cn key none)
  obtain ⟨hkey, hcrt, hfp⟩ := apply_leafWrites (LeafRun.sample cn key none).name_eq (fun _ => none)
    (g := Gen.sample key) (c := LeafRun.sampleCert cn key) (m := 3) (by omega)
  have hdisk : (exec (fun _ => none) [LeafRun.sample cn key none]).disk =
      Files.apply (fun _ => none) ((leafWrites (LeafRun.sample cn key none).leaf
        (Gen.sample key) (LeafRun.sampleCert cn key)).take 3) :=
    congrArg (Files.apply fun _ => none) hw
  refine ⟨?_, ?_, ?_, last_step (m := 3) (by omega) hw⟩
  · rw [hdisk, hkey]
    rfl
  · rw [hdisk, hcrt]
    rfl
  · rw [hdisk, hfp]
    rfl

end LeafState

/-- Two runs with the same parameters: the second leaves the files alone, and they are
    right. -/
theorem right_of_repeated_run :
    let σ := LeafState.exec (fun _ => none) [LeafRun.sample "node".toList 1 none]
    let r := LeafRun.sample "node".toList 2 none
    r.skips σ.disk = true ∧ r.Right (r.after σ.disk) := by
  obtain ⟨hkey, hcrt, hfp, hlast⟩ := LeafState.exec_sample "node".toList 1
  refine ⟨LeafRun.skips_of_files Rcgen.unary_lawful hkey hcrt hfp (by decide), ?_⟩
  have hfresh : ([LeafRun.sample "node".toList 1 none].map (·.gen.key)).Nodup :=
    List.nodup_singleton _
  have hcomp := LeafRun.completes_of_issued rfl (LeafRun.issued_sample "node".toList 2 none)
    (LeafState.exec (fun _ => none) [LeafRun.sample "node".toList 1 none]).disk
  refine (right_iff Rcgen.unary_lawful _ _ _ rfl hfresh (by decide) hcomp).mpr fun _ => ?_
  exact ⟨_, 3, hlast, by omega, ⟨rfl, rfl, rfl, rfl, rfl, rfl⟩⟩

/-- A change of the subject that is killed after its first write and then taken back:
    the last run finds the old fingerprint and the old certificate and leaves the new
    key beside them. -/
theorem interrupted_change_keeps_wrong_key :
    let rs := [LeafRun.sample "node".toList 1 none, LeafRun.sample "other".toList 2 (some 1)]
    let r := LeafRun.sample "node".toList 3 none
    let d := (LeafState.exec (fun _ => none) rs).disk
    r.Completes d ∧ ((rs ++ [r]).map (·.gen.key)).Nodup ∧ ¬ r.Right (r.after d) := by
  intro rs r d
  have hfresh : ([1, 2, 3] : List ℕ).Nodup := by decide
  refine ⟨LeafRun.completes_of_issued rfl (LeafRun.issued_sample "node".toList 3 none) d, hfresh, ?_⟩
  obtain ⟨-, hcrt, hfp, -⟩ := LeafState.exec_sample "node".toList 1
  have hstale := LeafRun.not_skips_of_fp (r := LeafRun.sample "other".toList 2 (some 1)) hfp
    (by rw [trimEnd_want]; decide)
  have hw := LeafRun.writes_of_issued hstale (LeafRun.issued_sample "other".toList 2 (some 1))
  have hd : d = Files.apply _ _ := congrArg (Files.apply _) hw
  obtain ⟨hkey', hcrt', hfp'⟩ := apply_leafWrites (LeafRun.sample "other".toList 2 (some 1)).name_eq
    (LeafState.exec (fun _ => none) [LeafRun.sample "node".toList 1 none]).disk
    (g := Gen.sample 2) (c := LeafRun.sampleCert "other".toList 2) (m := 1) le_rfl
  have hskips : r.skips d = true := by
    rw [hd]
    exact LeafRun.skips_of_files Rcgen.unary_lawful hkey' (hcrt'.trans hcrt) (hfp'.trans hfp)
      (by decide)
  have hkeys : ([1, 2] : List ℕ).Nodup := by decide
  have htracked := @LeafState.tracked_exec Rcgen.unary _ (fun _ => none) rfl rs hkeys
  rw [LeafRun.after_of_skips hskips, LeafRun.right_of_skips_iff Rcgen.unary_lawful htracked hskips]
  rintro ⟨w, n, hlast, hn, -⟩
  have hone : (LeafState.exec (fun _ => none) rs).last = some (_, 1) :=
    LeafState.last_step (m := 1) le_rfl hw
  rw [hone] at hlast
  cases hlast
  omega

end Kubenyx.Pki
