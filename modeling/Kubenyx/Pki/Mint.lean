import Kubenyx.Pki.Shared

/-!
# Minting the trust roots

Model of `ensure_ca`, `ensure_sa`, `CUSTODY_FILES` and `mint_ca` (lib.rs:250-304,
lib.rs:820-841). The six custody files are three pairs: two CAs, gated on both halves
being non-empty, and the service-account key pair, gated on the private half being
there.

* `mint_spec`: what minting writes, read off the directory before it.
* `mintCa_preserves_iff`: it leaves every non-empty custody file as it is exactly
  when no pair of the directory is half filled in the way that its gate misses.
-/

namespace Kubenyx.Pki

open Kubenyx.Common

variable {R : Rcgen}

/-! ## The program -/

/-- The self-signed certificate of a CA (lib.rs:256-266). -/
def caCert (R : Rcgen) (cn : Text) (g : Gen R) : Cert R.Pub where
  subject := ⟨none, cn⟩
  issuer := ⟨none, cn⟩
  signer := R.pub g.key
  pub := R.pub g.key
  isCa := true
  serial := g.serial
  notBefore := g.before.secs - 300
  notAfter := g.after.secs + 3650 * DAY
  keyUsages := [.keyCertSign, .crlSign]
  ekus := []
  sans := []

/-- `ensure_ca` (lib.rs:250-270). -/
def ensureCa (R : Rcgen) (name cn : Text) (g : Gen R) : Prog Unit := do
  let crt := inPki (name ++ ".crt".toList)
  let key := inPki (name ++ ".key".toList)
  if (← nonEmpty crt) && (← nonEmpty key) then return
  writePrivate key (R.keyPem g.key)
  writePrivate crt (R.certPem (caCert R cn g))

def saKey : File := inPki "sa.key".toList

def saPub : File := inPki "sa.pub".toList

/-- `ensure_sa` (lib.rs:274-291), with the key that `SecretKey::random` returns. -/
def ensureSa (R : Rcgen) (sk : R.Key) : Prog Unit := do
  if ← pathExists saKey then return
  writePrivate saKey (R.saKeyPem sk)
  writePrivate saPub (R.saPubPem (R.pub sk))

/-- `CUSTODY_FILES` (lib.rs:297-304). -/
def CUSTODY_FILES : List Text :=
  ["ca.crt".toList, "ca.key".toList, "front-proxy-ca.crt".toList, "front-proxy-ca.key".toList,
    "sa.key".toList, "sa.pub".toList]

/-- What a run of the minting takes from outside. -/
structure MintGen (R : Rcgen) where
  ca : Gen R
  frontProxyCa : Gen R
  sa : R.Key

/-- The minting phase, of `mint_ca` (lib.rs:832-834) and of `server`
    (lib.rs:520-524). -/
def mint (R : Rcgen) (g : MintGen R) : Prog Unit := do
  ensureCa R "ca".toList "kubenyx-ca".toList g.ca
  ensureCa R "front-proxy-ca".toList "kubenyx-front-proxy-ca".toList g.frontProxyCa
  ensureSa R g.sa

/-- `mint_ca` (lib.rs:826-841). -/
def mintCa (R : Rcgen) (out : Text) (g : MintGen R) : Prog Unit := do
  if out = [] then die "mint-ca requires --out DIR".toList
  mint R g

/-! ## What it writes -/

/-- The writes of `ensure_ca`. -/
def caWrites (R : Rcgen) (name cn : Text) (g : Gen R) (d : Disk) : List (File × Content) :=
  if isNonEmpty (d (inPki (name ++ ".crt".toList))) && isNonEmpty (d (inPki (name ++ ".key".toList)))
  then []
  else [(inPki (name ++ ".key".toList), .text (R.keyPem g.key)),
    (inPki (name ++ ".crt".toList), .text (R.certPem (caCert R cn g)))]

/-- The writes of `ensure_sa`. -/
def saWrites (R : Rcgen) (sk : R.Key) (d : Disk) : List (File × Content) :=
  if (d saKey).isSome then []
  else [(saKey, .text (R.saKeyPem sk)), (saPub, .text (R.saPubPem (R.pub sk)))]

theorem ensureCa_spec (name cn : Text) (g : Gen R) (d : Disk) :
    (ensureCa R name cn g).writes d = caWrites R name cn g d ∧
      ((ensureCa R name cn g).run d).1 = .ok () := by
  unfold ensureCa caWrites
  rw [writes_nonEmpty_bind, run_nonEmpty_bind, writes_nonEmpty_bind, run_nonEmpty_bind]
  split_ifs <;> exact ⟨rfl, rfl⟩

theorem ensureSa_spec (sk : R.Key) (d : Disk) :
    (ensureSa R sk).writes d = saWrites R sk d ∧ ((ensureSa R sk).run d).1 = .ok () := by
  unfold ensureSa saWrites
  rw [writes_pathExists_bind, run_pathExists_bind]
  split_ifs <;> exact ⟨rfl, rfl⟩

/-- The files that `caWrites` can write. -/
theorem mem_caWrites {name cn : Text} {g : Gen R} {d : Disk} {w : File × Content}
    (h : w ∈ caWrites R name cn g d) :
    w.1 = inPki (name ++ ".key".toList) ∨ w.1 = inPki (name ++ ".crt".toList) := by
  unfold caWrites at h
  split_ifs at h
  · cases h
  · simp only [List.mem_cons, List.not_mem_nil, or_false] at h
    rcases h with rfl | rfl
    · exact Or.inl rfl
    · exact Or.inr rfl

theorem mem_saWrites {sk : R.Key} {d : Disk} {w : File × Content} (h : w ∈ saWrites R sk d) :
    w.1 = saKey ∨ w.1 = saPub := by
  unfold saWrites at h
  split_ifs at h
  · cases h
  · simp only [List.mem_cons, List.not_mem_nil, or_false] at h
    rcases h with rfl | rfl
    · exact Or.inl rfl
    · exact Or.inr rfl

/-- Files outside a pair are left alone. -/
theorem caWrites_ne {name cn : Text} {g : Gen R} {d : Disk} {p : File}
    (hkey : p ≠ inPki (name ++ ".key".toList)) (hcrt : p ≠ inPki (name ++ ".crt".toList)) :
    ∀ w ∈ caWrites R name cn g d, w.1 ≠ p := by
  intro w hw heq
  rcases mem_caWrites hw with h | h
  · exact hkey (heq.symm.trans h)
  · exact hcrt (heq.symm.trans h)

theorem saWrites_ne {sk : R.Key} {d : Disk} {p : File} (hkey : p ≠ saKey) (hpub : p ≠ saPub) :
    ∀ w ∈ saWrites R sk d, w.1 ≠ p := by
  intro w hw heq
  rcases mem_saWrites hw with h | h
  · exact hkey (heq.symm.trans h)
  · exact hpub (heq.symm.trans h)

/-- The gates look only at their own pair. -/
theorem caWrites_congr {name cn : Text} {g : Gen R} {d d' : Disk}
    (hkey : d' (inPki (name ++ ".key".toList)) = d (inPki (name ++ ".key".toList)))
    (hcrt : d' (inPki (name ++ ".crt".toList)) = d (inPki (name ++ ".crt".toList))) :
    caWrites R name cn g d' = caWrites R name cn g d := by
  unfold caWrites
  rw [hkey, hcrt]

theorem saWrites_congr {sk : R.Key} {d d' : Disk} (hkey : d' saKey = d saKey) :
    saWrites R sk d' = saWrites R sk d := by
  unfold saWrites
  rw [hkey]

/-- The writes of the cluster CA, as `mint` makes them. -/
abbrev clusterWrites (g : MintGen R) (d : Disk) : List (File × Content) :=
  caWrites R "ca".toList "kubenyx-ca".toList g.ca d

/-- The writes of the front-proxy CA. -/
abbrev frontProxyWrites (g : MintGen R) (d : Disk) : List (File × Content) :=
  caWrites R "front-proxy-ca".toList "kubenyx-front-proxy-ca".toList g.frontProxyCa d

/-- The three pairs are disjoint, so each gate sees the directory as it was before
    the run. -/
theorem mint_spec (g : MintGen R) (d : Disk) :
    (mint R g).writes d = clusterWrites g d ++ (frontProxyWrites g d ++ saWrites R g.sa d) ∧
      ((mint R g).run d).1 = .ok () := by
  obtain ⟨hca, hcaOk⟩ := ensureCa_spec "ca".toList "kubenyx-ca".toList g.ca d
  have hframe : ∀ p, p ≠ inPki "ca.key".toList → p ≠ inPki "ca.crt".toList →
      d.apply (clusterWrites g d) p = d p :=
    fun p hkey hcrt => Files.apply_of_forall_ne d (caWrites_ne hkey hcrt)
  obtain ⟨hfp, hfpOk⟩ := ensureCa_spec "front-proxy-ca".toList "kubenyx-front-proxy-ca".toList
    g.frontProxyCa (d.apply (clusterWrites g d))
  have hfp' : frontProxyWrites g (d.apply (clusterWrites g d)) = frontProxyWrites g d :=
    caWrites_congr (hframe _ (by decide) (by decide)) (hframe _ (by decide) (by decide))
  obtain ⟨hsa, hsaOk⟩ := ensureSa_spec g.sa
    ((d.apply (clusterWrites g d)).apply (frontProxyWrites g d))
  have hsa' : saWrites R g.sa ((d.apply (clusterWrites g d)).apply (frontProxyWrites g d)) =
      saWrites R g.sa d := by
    refine saWrites_congr ?_
    rw [Files.apply_of_forall_ne _ (caWrites_ne (by decide) (by decide))]
    exact hframe _ (by decide) (by decide)
  replace hfp := hfp.trans hfp'
  replace hsa := hsa.trans hsa'
  unfold mint
  constructor
  · rw [FileProg.writes_bind_of_ok hcaOk, hca, FileProg.writes_bind_of_ok hfpOk, hfp, hsa]
  · rw [FileProg.run_bind_of_ok hcaOk, FileProg.run_files, hca, FileProg.run_bind_of_ok hfpOk,
      FileProg.run_files, hfp]
    exact hsaOk

theorem mint_ca_files (g : MintGen R) (d : Disk) {p : File}
    (h : p = inPki "ca.key".toList ∨ p = inPki "ca.crt".toList) :
    d.apply ((mint R g).writes d) p = d.apply (clusterWrites g d) p := by
  rw [(mint_spec g d).1]
  refine Files.apply_append_left d (List.forall_mem_append.mpr ⟨?_, ?_⟩)
  · rcases h with rfl | rfl <;> exact caWrites_ne (by decide) (by decide)
  · rcases h with rfl | rfl <;> exact saWrites_ne (by decide) (by decide)

theorem mint_frontProxy_files (g : MintGen R) (d : Disk) {p : File}
    (h : p = inPki "front-proxy-ca.key".toList ∨ p = inPki "front-proxy-ca.crt".toList) :
    d.apply ((mint R g).writes d) p = d.apply (frontProxyWrites g d) p := by
  rw [(mint_spec g d).1, Files.apply_append_right, Files.apply_append_left]
  · rcases h with rfl | rfl <;> exact saWrites_ne (by decide) (by decide)
  · rcases h with rfl | rfl <;> exact caWrites_ne (by decide) (by decide)

theorem mint_sa_files (g : MintGen R) (d : Disk) {p : File} (h : p = saKey ∨ p = saPub) :
    d.apply ((mint R g).writes d) p = d.apply (saWrites R g.sa d) p := by
  rw [(mint_spec g d).1, Files.apply_append_right, Files.apply_append_right]
  · rcases h with rfl | rfl <;> exact caWrites_ne (by decide) (by decide)
  · rcases h with rfl | rfl <;> exact caWrites_ne (by decide) (by decide)

/-! ## What minting leaves of the files that are there -/

theorem key_ne_crt (name : Text) :
    inPki (name ++ ".key".toList) ≠ inPki (name ++ ".crt".toList) := by
  intro h
  exact absurd (List.append_cancel_left (inPki_injective h)) (by decide)

/-- A CA of which a half is missing or empty is minted anew. -/
theorem apply_caWrites {name cn : Text} {g : Gen R} {d : Disk}
    (h : ¬ (isNonEmpty (d (inPki (name ++ ".crt".toList))) = true ∧
      isNonEmpty (d (inPki (name ++ ".key".toList))) = true)) :
    d.apply (caWrites R name cn g d) (inPki (name ++ ".key".toList)) =
        some (.text (R.keyPem g.key)) ∧
      d.apply (caWrites R name cn g d) (inPki (name ++ ".crt".toList)) =
        some (.text (R.certPem (caCert R cn g))) := by
  rw [← Bool.and_eq_true] at h
  rw [caWrites, if_neg h]
  simp only [Files.apply_cons, Files.apply_nil, Files.set_self, and_true]
  rw [Files.set_of_ne _ _ (key_ne_crt name), Files.set_self]

theorem caWrites_eq_nil {name cn : Text} {g : Gen R} {d : Disk}
    (hcrt : isNonEmpty (d (inPki (name ++ ".crt".toList))) = true)
    (hkey : isNonEmpty (d (inPki (name ++ ".key".toList))) = true) :
    caWrites R name cn g d = [] := by
  rw [caWrites, hcrt, hkey]
  rfl

/-- A CA is left alone exactly when neither or both of its halves are there, provided
    that what is generated is not in the files already. -/
theorem ca_preserved_iff {name cn : Text} {g : Gen R} {d : Disk}
    (hkey : d (inPki (name ++ ".key".toList)) ≠ some (.text (R.keyPem g.key)))
    (hcrt : d (inPki (name ++ ".crt".toList)) ≠ some (.text (R.certPem (caCert R cn g)))) :
    ((isNonEmpty (d (inPki (name ++ ".crt".toList))) = true →
        d.apply (caWrites R name cn g d) (inPki (name ++ ".crt".toList)) =
          d (inPki (name ++ ".crt".toList))) ∧
      (isNonEmpty (d (inPki (name ++ ".key".toList))) = true →
        d.apply (caWrites R name cn g d) (inPki (name ++ ".key".toList)) =
          d (inPki (name ++ ".key".toList)))) ↔
      isNonEmpty (d (inPki (name ++ ".crt".toList))) =
        isNonEmpty (d (inPki (name ++ ".key".toList))) := by
  by_cases hboth : isNonEmpty (d (inPki (name ++ ".crt".toList))) = true ∧
      isNonEmpty (d (inPki (name ++ ".key".toList))) = true
  · rw [caWrites_eq_nil hboth.1 hboth.2, hboth.1, hboth.2]
    simp
  · obtain ⟨hk, hc⟩ := @apply_caWrites R name cn g d hboth
    rw [hk, hc]
    have hk' := hkey.symm
    have hc' := hcrt.symm
    cases h1 : isNonEmpty (d (inPki (name ++ ".crt".toList))) <;>
      cases h2 : isNonEmpty (d (inPki (name ++ ".key".toList))) <;> simp_all

/-- The service-account pair is left alone exactly when its public half comes with a
    private one. -/
theorem sa_preserved_iff {sk : R.Key} {d : Disk}
    (hpub : d saPub ≠ some (.text (R.saPubPem (R.pub sk)))) :
    ((isNonEmpty (d saKey) = true → d.apply (saWrites R sk d) saKey = d saKey) ∧
      (isNonEmpty (d saPub) = true → d.apply (saWrites R sk d) saPub = d saPub)) ↔
      (isNonEmpty (d saPub) = true → (d saKey).isSome = true) := by
  unfold saWrites
  cases hkey : d saKey with
  | some c => simp [hkey]
  | none => simp [isNonEmpty, hpub.symm]

/-- The texts that a run of the minting can write. -/
def MintGen.texts (g : MintGen R) : List Text :=
  [R.keyPem g.ca.key, R.certPem (caCert R "kubenyx-ca".toList g.ca),
    R.keyPem g.frontProxyCa.key,
    R.certPem (caCert R "kubenyx-front-proxy-ca".toList g.frontProxyCa),
    R.saKeyPem g.sa, R.saPubPem (R.pub g.sa)]

/-- Nothing of what the run generates is in the directory already. -/
def MintGen.Fresh (g : MintGen R) (d : Disk) : Prop :=
  ∀ t ∈ g.texts, ∀ f, d f ≠ some (.text t)

theorem mintCa_files {out : Text} (hout : out ≠ []) (g : MintGen R) (d : Disk) :
    ((mintCa R out g).run d).2 = d.apply ((mint R g).writes d) := by
  rw [mintCa, if_neg hout, ← FileProg.run_files]

/-- `mint_ca` leaves every non-empty custody file as it is exactly when each CA has
    both of its files non-empty or neither, and a non-empty `sa.pub` comes with a
    `sa.key`. -/
theorem mintCa_preserves_iff {out : Text} (hout : out ≠ []) (g : MintGen R) (d : Disk)
    (hfresh : g.Fresh d) :
    (∀ f ∈ CUSTODY_FILES, isNonEmpty (d (inPki f)) = true →
      ((mintCa R out g).run d).2 (inPki f) = d (inPki f)) ↔
    isNonEmpty (d (inPki "ca.crt".toList)) = isNonEmpty (d (inPki "ca.key".toList)) ∧
    isNonEmpty (d (inPki "front-proxy-ca.crt".toList)) =
      isNonEmpty (d (inPki "front-proxy-ca.key".toList)) ∧
    (isNonEmpty (d (inPki "sa.pub".toList)) = true → (d (inPki "sa.key".toList)).isSome = true) := by
  have hca := @ca_preserved_iff R "ca".toList "kubenyx-ca".toList g.ca d
    (hfresh _ (by simp [MintGen.texts]) _) (hfresh _ (by simp [MintGen.texts]) _)
  have hfp := @ca_preserved_iff R "front-proxy-ca".toList "kubenyx-front-proxy-ca".toList
    g.frontProxyCa d (hfresh _ (by simp [MintGen.texts]) _) (hfresh _ (by simp [MintGen.texts]) _)
  have hsa := @sa_preserved_iff R g.sa d (hfresh _ (by simp [MintGen.texts]) _)
  rw [mintCa_files hout]
  simp only [CUSTODY_FILES, List.forall_mem_cons, List.not_mem_nil, false_implies,
    implies_true, and_true]
  rw [mint_ca_files g d (Or.inr rfl), mint_ca_files g d (Or.inl rfl),
    mint_frontProxy_files g d (Or.inr rfl), mint_frontProxy_files g d (Or.inl rfl),
    mint_sa_files g d (p := inPki "sa.key".toList) (Or.inl rfl),
    mint_sa_files g d (p := inPki "sa.pub".toList) (Or.inr rfl)]
  rw [← and_assoc]
  refine and_congr hca ?_
  rw [← and_assoc]
  exact and_congr hfp hsa

def MintGen.sample (k : ℕ) : MintGen Rcgen.unary :=
  ⟨Gen.sample k, Gen.sample (k + 1), (k + 2 : ℕ)⟩

theorem fresh_shipped (k : ℕ) (paths : List Text) : (MintGen.sample k).Fresh (shipped paths) := by
  intro t ht f hf
  unfold shipped at hf
  split_ifs at hf
  obtain rfl : "old".toList = t := Content.text.inj (Option.some.inj hf)
  have hhead : ∀ s ∈ (MintGen.sample k).texts, s.head? ≠ some 'o' := by
    simp only [MintGen.texts, List.forall_mem_cons, List.not_mem_nil, false_implies,
      implies_true, and_true]
    have hK : some 'K' ≠ some 'o' := by decide
    have hC : some 'C' ≠ some 'o' := by decide
    have hS : some 'S' ≠ some 'o' := by decide
    have hP : some 'P' ≠ some 'o' := by decide
    exact ⟨hK, hC, hK, hC, hS, hP⟩
  exact hhead _ ht (by decide)

/-- A directory that has the service-account pair and neither CA. -/
theorem mintCa_preserves_sa_pair :
    let d := shipped ["sa.key".toList, "sa.pub".toList]
    ∀ f ∈ CUSTODY_FILES, isNonEmpty (d (inPki f)) = true →
      ((mintCa Rcgen.unary "ca-bundle".toList (MintGen.sample 1)).run d).2 (inPki f) =
        d (inPki f) :=
  (mintCa_preserves_iff (by decide) (MintGen.sample 1) _ (fresh_shipped 1 _)).mpr
    ⟨by decide, by decide, by decide⟩

/-- A directory that has lost `ca.key`: running `mint_ca` replaces `ca.crt`, the
    certificate that the cluster trusts. In one that has lost `sa.key` it replaces
    `sa.pub`. -/
theorem mintCa_replaces_orphaned_halves :
    let d := shipped ["ca.crt".toList, "sa.pub".toList]
    let d' := ((mintCa Rcgen.unary "ca-bundle".toList (MintGen.sample 1)).run d).2
    isNonEmpty (d (inPki "ca.crt".toList)) = true ∧
      d' (inPki "ca.crt".toList) ≠ d (inPki "ca.crt".toList) ∧
      isNonEmpty (d (inPki "sa.pub".toList)) = true ∧
      d' (inPki "sa.pub".toList) ≠ d (inPki "sa.pub".toList) := by
  have hfresh := fresh_shipped 1 ["ca.crt".toList, "sa.pub".toList]
  refine ⟨by decide, ?_, by decide, ?_⟩
  · rw [mintCa_files (by decide), mint_ca_files _ _ (Or.inr rfl)]
    exact fun h => hfresh _ (by simp [MintGen.texts])
      _ (h.symm.trans (@apply_caWrites _ "ca".toList _ _ _ (by decide)).2)
  · rw [mintCa_files (by decide), mint_sa_files _ _ (p := inPki "sa.pub".toList) (Or.inr rfl)]
    exact fun h => hfresh _ (by simp [MintGen.texts]) _ (h.symm.trans rfl)

end Kubenyx.Pki
