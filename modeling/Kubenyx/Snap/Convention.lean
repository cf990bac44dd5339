import Kubenyx.Snap.Mesh

/-!
# The address convention

`conventional_ip` (lib.rs:1421-1439) is meant to mirror the addresses that `mkMembers` in
`lib/microvm.nix` gives the members of a mesh. The number in a name is read by the general
parser for integers, which takes a plus sign and leading zeros, and the octet that comes of it
is not checked.

* `Launcher`: the names of the launcher and the octets that it gives them.
* `conventionalIp_launcher`: these names get these addresses.
* `conventionalIp_conforms_iff`: a name is treated as the launcher does exactly when it is not
  one of a role with a number that is written otherwise or that is too large.
-/

namespace Kubenyx.Snap

open Kubenyx.Common
open Kubenyx.Net (Role)

/-- The last octet of the address of a numbered node, in a mesh with `s` servers. -/
def octet (s : ℕ) : Role → ℕ → ℕ
  | .server, n => 1 + n
  | .agent, n => 1 + s + n

theorem role_text_inj {r s : Role} {t u : Text} (h : r.text ++ t = s.text ++ u) : r = s ∧ t = u := by
  cases r with
  | server =>
    cases s with
    | server => exact ⟨rfl, List.append_cancel_left h⟩
    | agent => exact absurd (congrArg List.head? h) (by simp [Role.text])
  | agent =>
    cases s with
    | server => exact absurd (congrArg List.head? h) (by simp [Role.text])
    | agent => exact ⟨rfl, List.append_cancel_left h⟩

theorem le_octet (r : Role) (s n : ℕ) : n ≤ octet s r n := by
  cases r with
  | server => exact Nat.le_add_left n 1
  | agent => exact Nat.le_add_left n (1 + s)

theorem octet_injective (r : Role) (s : ℕ) : Function.Injective (octet s r) := by
  cases r with
  | server => exact add_right_injective 1
  | agent => exact add_right_injective (1 + s)

/-- The names of the launcher in a mesh with `s` servers, with their last octets. -/
inductive Launcher (s : ℕ) : Text → ℕ → Prop where
  | server : Launcher s "server".toList 2
  | numbered (r : Role) (n : ℕ) (hpos : 1 ≤ n) (hle : octet s r n ≤ 254) :
    Launcher s (r.text ++ decimal n) (octet s r n)

/-- The octet of a numbered name. -/
theorem Launcher.octet_eq {s o n : ℕ} {r : Role} (h : Launcher s (r.text ++ decimal n) o) :
    o = octet s r n := by
  generalize hname : r.text ++ decimal n = name at h
  cases h with
  | server =>
    obtain ⟨-, hnil⟩ := role_text_inj (s := .server) (u := []) hname
    exact absurd hnil (decimal_ne_nil n)
  | numbered r' m hpos hle =>
    obtain ⟨rfl, hdec⟩ := role_text_inj hname
    rw [decimal_injective hdec]

/-- The address on the network of the mesh. -/
def launcherAddress (octet : ℕ) : Text := "10.100.0.".toList ++ decimal octet

/-- A name gets an address if it is one of the launcher, the one that it has there; the sum
    does not overflow; and other numbers of the role get other addresses. -/
structure Conforms (s : ℕ) (name : Text) : Prop where
  address : ∀ ip, conventionalIp name s = some ip ↔ ∃ o, Launcher s name o ∧ ip = launcherAddress o
  noOverflow : ∀ (r : Role) n, numberSuffix name r.text = some n → octet s r n < 2 ^ 32
  distinct : ∀ (r : Role) n n', name = r.text ++ decimal n → n ≠ n' → ∀ o o', Launcher s name o →
    Launcher s (r.text ++ decimal n') o' →
    conventionalIp (r.text ++ decimal n') s ≠ conventionalIp name s

/-! ## What the code accepts -/

theorem numberSuffix_eq_some {name stem : Text} {n : ℕ} :
    numberSuffix name stem = some n ↔ ∃ t, name = stem ++ t ∧ parseU32 t = some n ∧ 1 ≤ n := by
  unfold numberSuffix
  rw [Option.filter_eq_some_iff, Option.bind_eq_some_iff, decide_eq_true_eq]
  constructor
  · rintro ⟨⟨t, hstrip, hparse⟩, hpos⟩
    exact ⟨t, stripPrefix_eq_some.mp hstrip, hparse, hpos⟩
  · rintro ⟨t, hname, hparse, hpos⟩
    exact ⟨⟨t, stripPrefix_eq_some.mpr hname, hparse⟩, hpos⟩

/-- A name of a role with a number that the parser takes. -/
theorem conventionalIp_numbered {s : ℕ} (r : Role) {t : Text} {n : ℕ} (hparse : parseU32 t = some n)
    (hpos : 1 ≤ n) : conventionalIp (r.text ++ t) s = some (meshAddress (octet s r n)) := by
  have hsuffix : numberSuffix (r.text ++ t) r.text = some n :=
    numberSuffix_eq_some.mpr ⟨t, rfl, hparse, hpos⟩
  have hne : r.text ++ t ≠ "server".toList := by
    intro hname
    obtain ⟨-, rfl⟩ := role_text_inj (s := .server) (u := []) hname
    cases hparse
  unfold conventionalIp
  rw [if_neg hne]
  cases r with
  | server =>
    rw [show "server".toList = Role.server.text from rfl, hsuffix]
    rfl
  | agent =>
    rw [show "agent".toList = Role.agent.text from rfl, hsuffix]
    rw [show Role.agent.text = "agent".toList from rfl, numberSuffix_agent_server]
    rfl

/-- Nothing else gets an address. -/
theorem conventionalIp_cases {s : ℕ} {name ip : Text} (h : conventionalIp name s = some ip) :
    (name = "server".toList ∧ ip = launcherAddress 2) ∨ ∃ (r : Role) (t : Text) (n : ℕ),
      name = r.text ++ t ∧ parseU32 t = some n ∧ 1 ≤ n ∧ ip = meshAddress (octet s r n) := by
  unfold conventionalIp at h
  split_ifs at h with hname
  · exact Or.inl ⟨hname, (Option.some.inj h).symm⟩
  · right
    cases hserver : numberSuffix name "server".toList with
    | some n =>
      rw [hserver] at h
      obtain ⟨t, ht, hparse, hpos⟩ := numberSuffix_eq_some.mp hserver
      exact ⟨.server, t, n, ht, hparse, hpos, (Option.some.inj h).symm⟩
    | none =>
      rw [hserver] at h
      obtain ⟨n, hagent, hip⟩ := Option.map_eq_some_iff.mp h
      obtain ⟨t, ht, hparse, hpos⟩ := numberSuffix_eq_some.mp hagent
      exact ⟨.agent, t, n, ht, hparse, hpos, hip.symm⟩

theorem meshAddress_of_lt {o : ℕ} (h : o < 2 ^ 32) : meshAddress o = launcherAddress o := by
  unfold meshAddress launcherAddress
  rw [Nat.mod_eq_of_lt h]

theorem launcherAddress_injective : Function.Injective launcherAddress := fun _ _ h =>
  decimal_injective (List.append_cancel_left h)

/-- The names of the launcher get their addresses. -/
theorem conventionalIp_launcher {s o : ℕ} {name : Text} (h : Launcher s name o) :
    conventionalIp name s = some (launcherAddress o) := by
  cases h with
  | server => rfl
  | numbered r n hpos hle =>
    have hn := le_octet r s n
    rw [conventionalIp_numbered r (parseU32_decimal (by omega)) hpos, meshAddress_of_lt (by omega)]

/-- The launcher writes numbers without a sign and leading zeros. -/
theorem Launcher.canonical {s o n : ℕ} {r : Role} {t : Text} (h : Launcher s (r.text ++ t) o)
    (hparse : parseU32 t = some n) : t = decimal n ∧ octet s r n ≤ 254 := by
  generalize hname : r.text ++ t = name at h
  cases h with
  | server =>
    obtain ⟨-, rfl⟩ := role_text_inj (s := .server) (u := []) hname
    cases hparse
  | numbered r' m hm hle =>
    obtain ⟨rfl, rfl⟩ := role_text_inj hname
    have hmle := le_octet r s m
    rw [parseU32_decimal (by omega)] at hparse
    obtain rfl := Option.some.inj hparse
    exact ⟨rfl, hle⟩

/-! ## When it is the launcher's convention -/

/-- The number of a numbered name is written as the launcher writes it, and its octet is one
    of a host. -/
def Canonical (s : ℕ) (name : Text) : Prop :=
  ∀ (r : Role) (t : Text) (n : ℕ), name = r.text ++ t → parseU32 t = some n → 1 ≤ n →
    t = decimal n ∧ octet s r n ≤ 254

/-- A name is treated as the launcher treats it exactly when it is not one of a role with a
    number that is written otherwise or that is too large. -/
theorem conventionalIp_conforms_iff (s : ℕ) (name : Text) : Conforms s name ↔ Canonical s name := by
  constructor
  · rintro hconf r t n rfl hparse hpos
    obtain ⟨o, hlauncher, -⟩ := (hconf.address _).mp (conventionalIp_numbered r hparse hpos)
    exact hlauncher.canonical hparse
  · intro hcanon
    refine ⟨fun ip => ⟨fun hip => ?_, ?_⟩, ?_, ?_⟩
    · rcases conventionalIp_cases hip with ⟨rfl, rfl⟩ | ⟨r, t, n, hname, hparse, hpos, rfl⟩
      · exact ⟨2, .server, rfl⟩
      · obtain ⟨rfl, hle⟩ := hcanon r t n hname hparse hpos
        subst hname
        exact ⟨octet s r n, .numbered r n hpos hle, meshAddress_of_lt (by omega)⟩
    · rintro ⟨o, hlauncher, rfl⟩
      exact conventionalIp_launcher hlauncher
    · intro r n hsuffix
      obtain ⟨t, hname, hparse, hpos⟩ := numberSuffix_eq_some.mp hsuffix
      have := (hcanon r t n hname hparse hpos).2
      omega
    · rintro r n n' rfl hne o o' hlauncher hlauncher' heq
      rw [conventionalIp_launcher hlauncher, conventionalIp_launcher hlauncher'] at heq
      have ho : o' = o := launcherAddress_injective (Option.some.inj heq)
      rw [hlauncher.octet_eq, hlauncher'.octet_eq] at ho
      exact hne (octet_injective r s ho).symm

/-- A leading zero, a plus sign and a number that is too large for the last octet: all three
    names get an address, the first one that of `server1`. -/
theorem conventionalIp_accepts_other_names :
    conventionalIp "server01".toList 3 = conventionalIp "server1".toList 3 ∧
      conventionalIp "agent+5".toList 3 = some "10.100.0.9".toList ∧
      conventionalIp "server300".toList 3 = some "10.100.0.301".toList ∧
      ¬ Conforms 3 "server01".toList ∧ ¬ Conforms 3 "agent+5".toList ∧
      ¬ Conforms 3 "server300".toList := by
  have hnot : ∀ {t : Text} {n : ℕ} (r : Role), parseU32 t = some n → 1 ≤ n →
      ¬ (t = decimal n ∧ octet 3 r n ≤ 254) → ¬ Conforms 3 (r.text ++ t) := by
    intro t n r hparse hpos hbad hconf
    obtain ⟨o, hlauncher, -⟩ := (hconf.address _).mp (conventionalIp_numbered r hparse hpos)
    exact hbad (hlauncher.canonical hparse)
  refine ⟨by decide, by decide, by decide, ?_, ?_, ?_⟩
  · exact hnot (t := "01".toList) .server (n := 1) (by decide) (by decide) (by decide)
  · exact hnot (t := "+5".toList) .agent (n := 5) (by decide) (by decide) (by decide)
  · exact hnot (t := "300".toList) .server (n := 300) (by decide) (by decide) (by decide)

end Kubenyx.Snap
