import Kubenyx.Pki.Server

/-!
# Minting that is interrupted

Runs of `mint_ca` and of `server` in the volatile posture, each killed after any of its
writes, on one directory that is empty at first. A CA of which the certificate is
missing is minted anew as a whole; a service-account key is kept wherever it is there,
with or without its public half.

* `CaPair`, `SaPair`: what killed runs leave of the pairs.
* `custody_iff`: after a run whose minting completes, the trust roots are complete and
  match exactly when no run before it was killed right after it had written `sa.key`.
-/

namespace Kubenyx.Pki

open Kubenyx.Common

variable {R : Rcgen}

/-! ## Killed runs -/

/-- A run that mints. -/
inductive MintRun (R : Rcgen) where
  | mintCa (out : Text) (hout : out ≠ []) (g : MintGen R)
  | server (cfg : Cfg) (hvolatile : cfg.requireShippedCa = false) (x : ServerInput R)

namespace MintRun

def gen : MintRun R → MintGen R
  | mintCa _ _ g => g
  | server _ _ x => x.mint

def prog : MintRun R → Prog Unit
  | mintCa out _ g => Pki.mintCa R out g
  | server cfg _ x => Pki.server R cfg x

/-- A run mints, and then writes no custody file. -/
theorem prog_writes (r : MintRun R) (d : Disk) :
    ∃ ws, r.prog.writes d = (mint R r.gen).writes d ++ ws ∧ ∀ w ∈ ws, NotCustody w.1 := by
  cases r with
  | mintCa out hout g =>
    refine ⟨[], ?_, nofun⟩
    show (Pki.mintCa R out g).writes d = _
    rw [Pki.mintCa, if_neg hout, List.append_nil]
    rfl
  | server cfg hvolatile x => exact server_writes hvolatile x d

end MintRun

/-- A run that is killed after `stop` writes, or that ends before. -/
structure KilledRun (R : Rcgen) where
  run : MintRun R
  stop : ℕ

namespace KilledRun

/-- The writes that the run gets to make. -/
def writes (r : KilledRun R) (d : Disk) : List (File × Content) := (r.run.prog.writes d).take r.stop

/-- The directory after the run. -/
def after (r : KilledRun R) (d : Disk) : Disk := r.run.prog.killed r.stop d

/-- The minting phase of the run completes. -/
def Minted (r : KilledRun R) (d : Disk) : Prop := ((mint R r.run.gen).writes d).length ≤ r.stop

/-- The run is killed right after it has written `sa.key`. -/
def Tears (r : KilledRun R) (d : Disk) : Prop := (r.writes d).getLast?.map Prod.fst = some saKey

instance (r : KilledRun R) (d : Disk) : Decidable (r.Tears d) :=
  inferInstanceAs (Decidable (_ = some saKey))

/-- The directory after runs, from an empty one. -/
def exec (d : Disk) (rs : List (KilledRun R)) : Disk := rs.foldl (fun d r => r.after d) d

/-- No run is killed right after it has written `sa.key`. -/
def NoneTears (d : Disk) : List (KilledRun R) → Prop
  | [] => True
  | r :: rs => ¬ r.Tears d ∧ NoneTears (r.after d) rs

end KilledRun

/-! ## The pairs -/

/-- The key and the certificate of a CA match. -/
def CaMatches (R : Rcgen) (name : Text) (d : Disk) : Prop :=
  ∃ k c, d (inPki (name ++ ".key".toList)) = some (.text (R.keyPem k)) ∧
    d (inPki (name ++ ".crt".toList)) = some (.text (R.certPem c)) ∧ c.pub = R.pub k

/-- `sa.pub` is the public half of `sa.key`. -/
def SaMatches (R : Rcgen) (d : Disk) : Prop :=
  ∃ k, d saKey = some (.text (R.saKeyPem k)) ∧ d saPub = some (.text (R.saPubPem (R.pub k)))

/-- The trust roots are complete and match. -/
def Custody (R : Rcgen) (d : Disk) : Prop :=
  (∀ f ∈ CUSTODY_FILES, isNonEmpty (d (inPki f)) = true) ∧ CaMatches R "ca".toList d ∧
    CaMatches R "front-proxy-ca".toList d ∧ SaMatches R d

/-- What killed runs leave of a CA: it has no certificate, or it matches. -/
def CaPair (R : Rcgen) (name : Text) (d : Disk) : Prop :=
  d (inPki (name ++ ".crt".toList)) = none ∨ CaMatches R name d

/-- A service-account pair that is not there yet, or that matches. -/
def SaPair (R : Rcgen) (d : Disk) : Prop := (d saKey = none ∧ d saPub = none) ∨ SaMatches R d

/-- A service-account key without its public half. -/
def SaTorn (d : Disk) : Prop := (d saKey).isSome = true ∧ d saPub = none

theorem CaMatches.nonEmpty (hR : R.Lawful) {name : Text} {d : Disk} (h : CaMatches R name d) :
    isNonEmpty (d (inPki (name ++ ".crt".toList))) = true ∧
      isNonEmpty (d (inPki (name ++ ".key".toList))) = true := by
  obtain ⟨k, c, hkey, hcrt, -⟩ := h
  rw [hkey, hcrt]
  exact ⟨nonEmpty_text (hR.certPem_ne_nil c), nonEmpty_text (hR.keyPem_ne_nil k)⟩

theorem SaMatches.nonEmpty (hR : R.Lawful) {d : Disk} (h : SaMatches R d) :
    isNonEmpty (d saKey) = true ∧ isNonEmpty (d saPub) = true := by
  obtain ⟨k, hkey, hpub⟩ := h
  rw [hkey, hpub]
  exact ⟨nonEmpty_text (hR.saKeyPem_ne_nil k), nonEmpty_text (hR.saPubPem_ne_nil _)⟩

theorem CaMatches.congr {name : Text} {d d' : Disk} (h : CaMatches R name d)
    (hkey : d' (inPki (name ++ ".key".toList)) = d (inPki (name ++ ".key".toList)))
    (hcrt : d' (inPki (name ++ ".crt".toList)) = d (inPki (name ++ ".crt".toList))) :
    CaMatches R name d' := by
  obtain ⟨k, c, hk, hc, hpub⟩ := h
  exact ⟨k, c, hkey.trans hk, hcrt.trans hc, hpub⟩

theorem CaPair.congr {name : Text} {d d' : Disk} (h : CaPair R name d)
    (hkey : d' (inPki (name ++ ".key".toList)) = d (inPki (name ++ ".key".toList)))
    (hcrt : d' (inPki (name ++ ".crt".toList)) = d (inPki (name ++ ".crt".toList))) :
    CaPair R name d' :=
  h.imp hcrt.trans fun hmatch => hmatch.congr hkey hcrt

theorem SaMatches.congr {d d' : Disk} (h : SaMatches R d) (hkey : d' saKey = d saKey)
    (hpub : d' saPub = d saPub) : SaMatches R d' := by
  obtain ⟨k, hk, hp⟩ := h
  exact ⟨k, hkey.trans hk, hpub.trans hp⟩

/-- Matching pairs are not empty. -/
theorem custody_of_matches (hR : R.Lawful) {d : Disk} (hca : CaMatches R "ca".toList d)
    (hfp : CaMatches R "front-proxy-ca".toList d) (hsa : SaMatches R d) : Custody R d := by
  refine ⟨?_, hca, hfp, hsa⟩
  simp only [CUSTODY_FILES, List.forall_mem_cons, List.not_mem_nil, false_implies, implies_true,
    and_true]
  exact ⟨(hca.nonEmpty hR).1, (hca.nonEmpty hR).2, (hfp.nonEmpty hR).1, (hfp.nonEmpty hR).2,
    (hsa.nonEmpty hR).1, (hsa.nonEmpty hR).2⟩

/-- The first writes of `ensure_ca`, or all of them. -/
theorem CaPair.apply (hR : R.Lawful) {name cn : Text} {g : Gen R} {d : Disk} (h : CaPair R name d)
    (m : ℕ) :
    CaPair R name (d.apply ((caWrites R name cn g d).take m)) ∧
      ((caWrites R name cn g d).length ≤ m →
        CaMatches R name (d.apply ((caWrites R name cn g d).take m))) := by
  rcases h with hnone | hmatch
  · have hw : caWrites R name cn g d = [(inPki (name ++ ".key".toList), .text (R.keyPem g.key)),
        (inPki (name ++ ".crt".toList), .text (R.certPem (caCert R cn g)))] := by
      unfold caWrites
      rw [hnone]
      rfl
    have hne := key_ne_crt name
    rw [hw]
    match m with
    | 0 => exact ⟨Or.inl hnone, nofun⟩
    | 1 =>
      refine ⟨Or.inl ?_, fun hlen => absurd hlen (Nat.not_succ_le_self 1)⟩
      exact (Files.set_of_ne _ _ hne.symm).trans hnone
    | m + 2 =>
      rw [List.take_of_length_le (Nat.le_add_left 2 m)]
      have hmatch : CaMatches R name _ := ⟨g.key, caCert R cn g,
        (Files.set_of_ne _ _ hne).trans (Files.set_self d _ _), Files.set_self .., rfl⟩
      exact ⟨Or.inr hmatch, fun _ => hmatch⟩
  · have hnil : caWrites R name cn g d = [] :=
      caWrites_eq_nil (hmatch.nonEmpty hR).1 (hmatch.nonEmpty hR).2
    rw [hnil, List.take_nil]
    exact ⟨Or.inr hmatch, fun _ => hmatch⟩

theorem saWrites_of_none {sk : R.Key} {d : Disk} (h : d saKey = none) :
    saWrites R sk d = [(saKey, .text (R.saKeyPem sk)), (saPub, .text (R.saPubPem (R.pub sk)))] := by
  unfold saWrites
  rw [h]
  rfl

/-- Both halves of the service-account pair, and other files after them. -/
theorem saMatches_apply {sk : R.Key} {ws : List (File × Content)} (d : Disk)
    (hws : ∀ w ∈ ws, w.1 ≠ saKey ∧ w.1 ≠ saPub) :
    SaMatches R (d.apply ((saKey, .text (R.saKeyPem sk)) ::
      (saPub, .text (R.saPubPem (R.pub sk))) :: ws)) := by
  have hne : saKey ≠ saPub := by decide
  refine ⟨sk, ?_, ?_⟩
  · refine (Files.apply_of_forall_ne _ fun w hmem => (hws w hmem).1).trans ?_
    exact (Files.set_of_ne _ _ hne).trans (Files.set_self d saKey _)
  · refine (Files.apply_of_forall_ne _ fun w hmem => (hws w hmem).2).trans ?_
    exact Files.set_self _ saPub _

/-! ## What a killed run leaves of the pairs -/

namespace KilledRun

variable (r : KilledRun R) (d : Disk)

/-- The writes of a run, pair by pair. -/
theorem writes_eq : ∃ ws, (∀ w ∈ ws, NotCustody w.1) ∧
    r.writes d = (clusterWrites r.run.gen d).take r.stop ++
      ((frontProxyWrites r.run.gen d).take (r.stop - (clusterWrites r.run.gen d).length) ++
        (saWrites R r.run.gen.sa d ++ ws).take (r.stop - (clusterWrites r.run.gen d).length -
          (frontProxyWrites r.run.gen d).length)) := by
  obtain ⟨ws, hws, hnot⟩ := r.run.prog_writes d
  refine ⟨ws, hnot, ?_⟩
  unfold writes
  rw [hws, (mint_spec r.run.gen d).1, List.append_assoc, List.append_assoc, List.take_append,
    List.take_append]

theorem cluster_after {p : File} (h : p = inPki "ca.key".toList ∨ p = inPki "ca.crt".toList) :
    r.after d p = d.apply ((clusterWrites r.run.gen d).take r.stop) p := by
  obtain ⟨ws, hnot, hw⟩ := r.writes_eq d
  show d.apply (r.writes d) p = _
  rw [hw]
  refine Files.apply_append_left d (List.forall_mem_append.mpr ⟨fun w hw => ?_, fun w hw => ?_⟩)
  · have hmem := List.mem_of_mem_take hw
    rcases h with rfl | rfl <;> exact caWrites_ne (by decide) (by decide) w hmem
  · rcases List.mem_append.mp (List.mem_of_mem_take hw) with hmem | hmem
    · rcases h with rfl | rfl <;> exact saWrites_ne (by decide) (by decide) w hmem
    · rcases h with rfl | rfl <;> exact (hnot w hmem).ne (by decide)

theorem frontProxy_after {p : File}
    (h : p = inPki "front-proxy-ca.key".toList ∨ p = inPki "front-proxy-ca.crt".toList) :
    r.after d p = d.apply ((frontProxyWrites r.run.gen d).take
      (r.stop - (clusterWrites r.run.gen d).length)) p := by
  obtain ⟨ws, hnot, hw⟩ := r.writes_eq d
  show d.apply (r.writes d) p = _
  rw [hw, Files.apply_append_right, Files.apply_append_left]
  · intro w hw
    rcases List.mem_append.mp (List.mem_of_mem_take hw) with hmem | hmem
    · rcases h with rfl | rfl <;> exact saWrites_ne (by decide) (by decide) w hmem
    · rcases h with rfl | rfl <;> exact (hnot w hmem).ne (by decide)
  · intro w hw
    have hmem := List.mem_of_mem_take hw
    rcases h with rfl | rfl <;> exact caWrites_ne (by decide) (by decide) w hmem

/-- The writes of a run before the service-account pair, and the number of writes that
    are left for the pair and what comes after it. -/
theorem writes_sa : ∃ pre ws, (∀ w ∈ pre, w.1 ≠ saKey ∧ w.1 ≠ saPub) ∧
    (∀ w ∈ ws, w.1 ≠ saKey ∧ w.1 ≠ saPub) ∧
    r.writes d = pre ++ (saWrites R r.run.gen.sa d ++ ws).take (r.stop -
      (clusterWrites r.run.gen d).length - (frontProxyWrites r.run.gen d).length) := by
  obtain ⟨ws, hnot, hw⟩ := r.writes_eq d
  refine ⟨_, ws, ?_, fun w hw => ⟨(hnot w hw).ne (by decide), (hnot w hw).ne (by decide)⟩,
    hw.trans (List.append_assoc ..).symm⟩
  refine List.forall_mem_append.mpr ⟨fun w hw => ?_, fun w hw => ?_⟩
  · have hmem := List.mem_of_mem_take hw
    exact ⟨caWrites_ne (by decide) (by decide) w hmem, caWrites_ne (by decide) (by decide) w hmem⟩
  · have hmem := List.mem_of_mem_take hw
    exact ⟨caWrites_ne (by decide) (by decide) w hmem, caWrites_ne (by decide) (by decide) w hmem⟩

/-- The last write of a run is in any part that ends it and is not empty. -/
theorem not_tears {a b : List (File × Content)} (hw : r.writes d = a ++ b)
    (hb : ∀ w ∈ b, w.1 ≠ saKey) (hne : a = [] ∨ b ≠ []) : ¬ r.Tears d := by
  intro htears
  obtain ⟨w, hlast, hfst⟩ := Option.map_eq_some_iff.mp htears
  rw [hw] at hlast
  refine hb w ?_ hfst
  rcases hne with rfl | hne
  · exact List.mem_of_getLast? hlast
  · rw [List.getLast?_append_of_ne_nil _ hne] at hlast
    exact List.mem_of_getLast? hlast

variable {r d}

theorem ca_step (hR : R.Lawful) (h : CaPair R "ca".toList d) :
    CaPair R "ca".toList (r.after d) ∧ (r.Minted d → CaMatches R "ca".toList (r.after d)) := by
  have hkey := r.cluster_after d (Or.inl rfl)
  have hcrt := r.cluster_after d (Or.inr rfl)
  obtain ⟨hpair, hfull⟩ := h.apply hR r.stop (g := r.run.gen.ca)
  refine ⟨hpair.congr hkey hcrt, fun hminted => (hfull ?_).congr hkey hcrt⟩
  unfold Minted at hminted
  rw [(mint_spec r.run.gen d).1, List.length_append] at hminted
  show (clusterWrites r.run.gen d).length ≤ r.stop
  omega

theorem frontProxy_step (hR : R.Lawful) (h : CaPair R "front-proxy-ca".toList d) :
    CaPair R "front-proxy-ca".toList (r.after d) ∧
      (r.Minted d → CaMatches R "front-proxy-ca".toList (r.after d)) := by
  have hkey := r.frontProxy_after d (Or.inl rfl)
  have hcrt := r.frontProxy_after d (Or.inr rfl)
  obtain ⟨hpair, hfull⟩ := h.apply hR (r.stop - (clusterWrites r.run.gen d).length)
    (g := r.run.gen.frontProxyCa)
  refine ⟨hpair.congr hkey hcrt, fun hminted => (hfull ?_).congr hkey hcrt⟩
  unfold Minted at hminted
  rw [(mint_spec r.run.gen d).1, List.length_append, List.length_append] at hminted
  show (frontProxyWrites r.run.gen d).length ≤ r.stop - (clusterWrites r.run.gen d).length
  omega

/-- What is left for the service-account pair of a run whose minting completes. -/
theorem length_saWrites_le (h : r.Minted d) :
    (saWrites R r.run.gen.sa d).length ≤ r.stop - (clusterWrites r.run.gen d).length -
      (frontProxyWrites r.run.gen d).length := by
  unfold Minted at h
  rw [(mint_spec r.run.gen d).1, List.length_append, List.length_append] at h
  omega

/-- A run leaves a service-account pair alone of which the key is there. -/
theorem sa_after_of_isSome (h : (d saKey).isSome = true) :
    ¬ r.Tears d ∧ r.after d saKey = d saKey ∧ r.after d saPub = d saPub := by
  obtain ⟨pre, ws, hpre, hws, hw⟩ := r.writes_sa d
  have hnil : saWrites R r.run.gen.sa d = [] := by
    unfold saWrites
    rw [if_pos h]
  rw [hnil, List.nil_append] at hw
  have hall : ∀ w ∈ r.writes d, w.1 ≠ saKey ∧ w.1 ≠ saPub := by
    rw [hw]
    exact List.forall_mem_append.mpr ⟨hpre, fun w hmem => hws w (List.mem_of_mem_take hmem)⟩
  refine ⟨r.not_tears d (a := []) rfl (fun w hmem => (hall w hmem).1) (Or.inl rfl), ?_, ?_⟩
  · exact Files.apply_of_forall_ne d fun w hmem => (hall w hmem).1
  · exact Files.apply_of_forall_ne d fun w hmem => (hall w hmem).2

/-- A run in a directory without a service-account pair: it writes nothing of the pair,
    only the key, or both halves. -/
theorem sa_step_of_none (hkey : d saKey = none) (hpub : d saPub = none) :
    (¬ r.Tears d ∧ SaPair R (r.after d) ∧ (r.Minted d → SaMatches R (r.after d))) ∨
      (r.Tears d ∧ ¬ r.Minted d ∧ SaTorn (r.after d)) := by
  have hne : saPub ≠ saKey := by decide
  obtain ⟨pre, ws, hpre, hws, hw⟩ := r.writes_sa d
  have hlen := length_saWrites_le (r := r) (d := d)
  rw [saWrites_of_none hkey] at hw hlen
  have hafterKey : r.after d saKey = _ := (congrArg (d.apply · saKey) hw).trans
    (Files.apply_append_right d fun w hmem => (hpre w hmem).1)
  have hafterPub : r.after d saPub = _ := (congrArg (d.apply · saPub) hw).trans
    (Files.apply_append_right d fun w hmem => (hpre w hmem).2)
  generalize r.stop - (clusterWrites r.run.gen d).length -
    (frontProxyWrites r.run.gen d).length = n at hw hlen hafterKey hafterPub
  match n with
  | 0 =>
    left
    refine ⟨r.not_tears d (a := []) hw ?_ (Or.inl rfl), Or.inl ⟨?_, ?_⟩, fun hm => nomatch hlen hm⟩
    · exact List.forall_mem_append.mpr ⟨fun w hmem => (hpre w hmem).1, nofun⟩
    · exact hafterKey.trans hkey
    · exact hafterPub.trans hpub
  | 1 =>
    right
    refine ⟨?_, fun hm => absurd (hlen hm) (Nat.not_succ_le_self 1), ?_, ?_⟩
    · show (r.writes d).getLast?.map Prod.fst = some saKey
      rw [hw]
      exact congrArg (Option.map Prod.fst) List.getLast?_concat
    · rw [hafterKey]
      exact congrArg Option.isSome (Files.set_self d saKey _)
    · rw [hafterPub]
      exact (Files.set_of_ne d (.text (R.saKeyPem r.run.gen.sa)) hne).trans hpub
  | n + 2 =>
    left
    have hws' : ∀ w ∈ ws.take n, w.1 ≠ saKey ∧ w.1 ≠ saPub := fun w hmem =>
      hws w (List.mem_of_mem_take hmem)
    have hmatch : SaMatches R (r.after d) := (saMatches_apply d hws').congr hafterKey hafterPub
    refine ⟨r.not_tears d (hw.trans (List.append_cons ..)) ?_ (Or.inr (List.cons_ne_nil _ _)),
      Or.inr hmatch, fun _ => hmatch⟩
    exact List.forall_mem_cons.mpr ⟨hne, fun w hmem => (hws' w hmem).1⟩

/-- A run leaves a service-account pair that is right, unless it is killed right after
    it has written `sa.key`. -/
theorem sa_step (h : SaPair R d) :
    (¬ r.Tears d ∧ SaPair R (r.after d) ∧ (r.Minted d → SaMatches R (r.after d))) ∨
      (r.Tears d ∧ ¬ r.Minted d ∧ SaTorn (r.after d)) := by
  rcases h with ⟨hkey, hpub⟩ | hmatch
  · exact sa_step_of_none hkey hpub
  · have hsome : (d saKey).isSome = true := by
      obtain ⟨k, hkey, -⟩ := hmatch
      rw [hkey]
      rfl
    obtain ⟨hnot, hkey', hpub'⟩ := sa_after_of_isSome (r := r) hsome
    have hmatch' := hmatch.congr hkey' hpub'
    exact Or.inl ⟨hnot, Or.inr hmatch', fun _ => hmatch'⟩

/-- A torn pair stays torn. -/
theorem saTorn_step (h : SaTorn d) : SaTorn (r.after d) := by
  obtain ⟨-, hkey, hpub⟩ := sa_after_of_isSome (r := r) h.1
  exact ⟨hkey ▸ h.1, hpub.trans h.2⟩

theorem saTorn_exec (rs : List (KilledRun R)) (h : SaTorn d) : SaTorn (exec d rs) := by
  induction rs generalizing d with
  | nil => exact h
  | cons r rs ih => exact ih (saTorn_step h)

/-- The pairs of the CAs after any runs. -/
theorem ca_exec (hR : R.Lawful) (rs : List (KilledRun R)) (hca : CaPair R "ca".toList d)
    (hfp : CaPair R "front-proxy-ca".toList d) :
    CaPair R "ca".toList (exec d rs) ∧ CaPair R "front-proxy-ca".toList (exec d rs) := by
  induction rs generalizing d with
  | nil => exact ⟨hca, hfp⟩
  | cons r rs ih => exact ih (ca_step hR hca).1 (frontProxy_step hR hfp).1

/-- The service-account pair after any runs: it is right if and only if none tears it. -/
theorem sa_exec (rs : List (KilledRun R)) (h : SaPair R d) :
    (NoneTears d rs ∧ SaPair R (exec d rs)) ∨ (¬ NoneTears d rs ∧ SaTorn (exec d rs)) := by
  induction rs generalizing d with
  | nil => exact Or.inl ⟨trivial, h⟩
  | cons r rs ih =>
    rcases sa_step (r := r) h with ⟨hnot, hpair, -⟩ | ⟨htears, -, htorn⟩
    · rcases ih hpair with ⟨hnone, hrest⟩ | ⟨hsome, hrest⟩
      · exact Or.inl ⟨⟨hnot, hnone⟩, hrest⟩
      · exact Or.inr ⟨fun hall => hsome hall.2, hrest⟩
    · exact Or.inr ⟨fun hall => hall.1 htears, saTorn_exec rs htorn⟩

end KilledRun

/-- Any runs of the minting, each killed after any of its writes, from an empty
    directory, and then a run whose minting completes: the trust roots are complete and
    match exactly when none of the runs before was killed right after it had written
    `sa.key`. -/
theorem custody_iff (hR : R.Lawful) (rs : List (KilledRun R)) (r : KilledRun R)
    (hminted : r.Minted (KilledRun.exec (fun _ => none) rs)) :
    Custody R (r.after (KilledRun.exec (fun _ => none) rs)) ↔
      KilledRun.NoneTears (fun _ => none) rs := by
  obtain ⟨hca, hfp⟩ := KilledRun.ca_exec hR (d := fun _ => none) rs (Or.inl rfl) (Or.inl rfl)
  have hsa := KilledRun.sa_exec (d := fun _ => none) rs (Or.inl ⟨rfl, rfl⟩)
  generalize KilledRun.exec (fun _ => none) rs = d at hminted hca hfp hsa
  rcases hsa with ⟨hnone, hpair⟩ | ⟨htears, htorn⟩
  · refine ⟨fun _ => hnone, fun _ => custody_of_matches hR ((KilledRun.ca_step hR hca).2 hminted)
      ((KilledRun.frontProxy_step hR hfp).2 hminted) ?_⟩
    rcases KilledRun.sa_step (r := r) hpair with ⟨-, -, hmatch⟩ | ⟨-, hnot, -⟩
    · exact hmatch hminted
    · exact absurd hminted hnot
  · refine ⟨fun hcustody => ?_, fun hnone => absurd hnone htears⟩
    obtain ⟨k, -, hpub⟩ := hcustody.2.2.2
    rw [(KilledRun.saTorn_step htorn).2] at hpub
    cases hpub

namespace KilledRun

/-- A run of the minting writes at most six files. -/
theorem minted_of_six_le {r : KilledRun R} (h : 6 ≤ r.stop) (d : Disk) : r.Minted d := by
  have hca : ∀ name cn (g : Gen R), (caWrites R name cn g d).length ≤ 2 := by
    intro name cn g
    unfold caWrites
    split_ifs <;> simp
  have hsa : (saWrites R r.run.gen.sa d).length ≤ 2 := by
    unfold saWrites
    split_ifs <;> simp
  unfold Minted
  rw [(mint_spec r.run.gen d).1, List.length_append, List.length_append]
  have hcluster : (clusterWrites r.run.gen d).length ≤ 2 := hca ..
  have hfrontProxy : (frontProxyWrites r.run.gen d).length ≤ 2 := hca ..
  omega

/-- A run of `mint_ca` that is killed after `stop` writes. -/
def sample (k stop : ℕ) : KilledRun Rcgen.unary :=
  ⟨.mintCa "ca-bundle".toList (by decide) (MintGen.sample k), stop⟩

end KilledRun

/-- A run that is killed after `ca.key`, one that is killed after both CAs, and a whole
    one. -/
theorem custody_of_two_killed_runs :
    Custody Rcgen.unary ((KilledRun.sample 7 6).after
      (KilledRun.exec (fun _ => none) [KilledRun.sample 1 1, KilledRun.sample 4 4])) := by
  refine (custody_iff Rcgen.unary_lawful _ _ (KilledRun.minted_of_six_le le_rfl _)).mpr ?_
  exact ⟨by decide, by decide, trivial⟩

/-- A run that is killed between `sa.key` and `sa.pub`, and then a whole one. -/
theorem killed_run_loses_sa_pub :
    let d := KilledRun.exec (fun _ => none) [KilledRun.sample 1 5]
    (KilledRun.sample 4 6).Minted d ∧
      (KilledRun.sample 4 6).after d (inPki "sa.pub".toList) = none ∧
      ¬ Custody Rcgen.unary ((KilledRun.sample 4 6).after d) := by
  intro d
  have htears : (KilledRun.sample 1 5).Tears (fun _ => none) := by decide
  have htorn : SaTorn d := by
    rcases KilledRun.sa_step (r := KilledRun.sample 1 5) (d := fun _ => none)
      (Or.inl ⟨rfl, rfl⟩) with ⟨hnot, -⟩ | ⟨-, -, htorn⟩
    · exact absurd htears hnot
    · exact htorn
  have hpub := (KilledRun.saTorn_step (r := KilledRun.sample 4 6) htorn).2
  refine ⟨KilledRun.minted_of_six_le le_rfl d, hpub, fun hcustody => ?_⟩
  obtain ⟨k, -, hpub'⟩ := hcustody.2.2.2
  cases hpub.symm.trans hpub'

end Kubenyx.Pki
