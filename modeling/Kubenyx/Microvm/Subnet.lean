import Kubenyx.Common.Decimal

/-!
# Subnets of a mesh

Model of `subnetFor` and `tapFor` (lib/microvm.nix:61-78, lib/microvm.nix:293): the
addresses and interface names that a mesh derives from its subnet. The default subnet
keeps its historical names, every other gets a tag of four hex digits of its hash.

* `names_disjoint_iff`: two meshes on different subnets share no interface name exactly
  when one is on the default subnet or the tags differ.
-/

namespace Kubenyx.Microvm

open Kubenyx.Common

/-- A lower case hex digit. -/
def isHexDigit (c : Char) : Bool := c.isDigit || ('a' ≤ c && c ≤ 'f')

/-- `builtins.hashString "sha256"`: 64 lower case hex digits. -/
structure HashString where
  sha256 : Text → Text
  length_eq : ∀ t, (sha256 t).length = 64
  hex : ∀ t, (sha256 t).all isHexDigit = true

/-- `defaultSubnet` (lib/microvm.nix:43). -/
def defaultSubnet : Text := "10.100.0.0/24".toList

/-- A match of `[0-9]+`. -/
def isNumber (t : Text) : Bool := t ≠ [] && t.all Char.isDigit

/-- `builtins.match "([0-9]+\\.[0-9]+\\.[0-9]+)\\.0/24" subnet`: the group, if the whole
    string matches. -/
def octets (subnet : Text) : Option Text :=
  if ".0/24".toList <:+ subnet then
    let group := subnet.take (subnet.length - 5)
    match group.splitOn '.' with
    | [a, b, c] => if isNumber a && isNumber b && isNumber c then some group else none
    | _ => none
  else none

/-- The attributes that `subnetFor` returns. -/
structure Subnet where
  isDefault : Bool
  netPrefix : Text
  gateway : Text
  bridge : Text
  tapPrefix : Text
  deriving DecidableEq

/-- The `tag` of a subnet (lib/microvm.nix:75). -/
def tag (H : HashString) (subnet : Text) : Text := (H.sha256 subnet).take 4

/-- `subnetFor` (lib/microvm.nix:61-78); `none` if the assertion fails. -/
def subnetFor (H : HashString) (subnet : Text) : Option Subnet :=
  match octets subnet with
  | none => none
  | some netPrefix =>
    let isDefault := decide (subnet = defaultSubnet)
    some {
      isDefault := isDefault
      netPrefix := netPrefix
      gateway := netPrefix ++ ".1".toList
      bridge := if isDefault then "kubenyx-br0".toList else "kubenyx-br-".toList ++ tag H subnet
      tapPrefix :=
        if isDefault then "kubenyx-tap".toList else "kx-".toList ++ tag H subnet ++ "-t".toList }

/-- `tapFor` of the member with the given index (lib/microvm.nix:293). -/
def Subnet.tapFor (sn : Subnet) (index : ℕ) : Text := sn.tapPrefix ++ decimal index

theorem length_tag (H : HashString) (subnet : Text) : (tag H subnet).length = 4 := by
  rw [tag, List.length_take, H.length_eq]
  rfl

section names

variable {H : HashString} {subnet subnet' : Text} {sn sn' : Subnet}

theorem octets_of_subnetFor (h : subnetFor H subnet = some sn) : octets subnet = some sn.netPrefix := by
  unfold subnetFor at h
  split at h
  · exact absurd h (by simp)
  case h_2 netPrefix heq =>
    obtain rfl := Option.some.inj h
    exact heq

theorem subnetFor_default (h : subnetFor H defaultSubnet = some sn) :
    sn.bridge = "kubenyx-br0".toList ∧ sn.tapPrefix = "kubenyx-tap".toList := by
  unfold subnetFor at h
  split at h
  · exact absurd h (by simp)
  · obtain rfl := Option.some.inj h
    simp

theorem subnetFor_tagged (h : subnetFor H subnet = some sn) (hne : subnet ≠ defaultSubnet) :
    sn.bridge = "kubenyx-br-".toList ++ tag H subnet ∧
      sn.tapPrefix = "kx-".toList ++ tag H subnet ++ "-t".toList := by
  unfold subnetFor at h
  split at h
  · exact absurd h (by simp)
  · obtain rfl := Option.some.inj h
    simp [hne]

/-- The historical names are in no tagged family: the bridges differ in their eleventh
    character and the taps in their second. -/
theorem default_ne_tagged {br tp : Text} (hbr : br = "kubenyx-br0".toList)
    (htp : tp = "kubenyx-tap".toList) (tg : Text) (i j : ℕ) :
    br ≠ "kubenyx-br-".toList ++ tg ∧
      tp ++ decimal i ≠ "kx-".toList ++ tg ++ "-t".toList ++ decimal j := by
  subst hbr htp
  constructor <;> intro h <;> simp at h

/-- Two meshes on different subnets share no interface name, exactly when one of them is
    on the default subnet or the truncated hashes of the two differ. -/
theorem names_disjoint_iff (h : subnetFor H subnet = some sn) (h' : subnetFor H subnet' = some sn')
    (hne : subnet ≠ subnet') (i j : ℕ) :
    (sn.bridge ≠ sn'.bridge ∧ sn.tapFor i ≠ sn'.tapFor j) ↔
      (subnet = defaultSubnet ∨ subnet' = defaultSubnet ∨ tag H subnet ≠ tag H subnet') := by
  unfold Subnet.tapFor
  by_cases hd : subnet = defaultSubnet
  · subst hd
    obtain ⟨hbr, htp⟩ := subnetFor_default h
    obtain ⟨hbr', htp'⟩ := subnetFor_tagged h' hne.symm
    rw [hbr', htp']
    exact ⟨fun _ => Or.inl rfl, fun _ => default_ne_tagged hbr htp _ i j⟩
  · obtain ⟨hbr, htp⟩ := subnetFor_tagged h hd
    by_cases hd' : subnet' = defaultSubnet
    · subst hd'
      obtain ⟨hbr', htp'⟩ := subnetFor_default h'
      obtain ⟨hb, ht⟩ := default_ne_tagged hbr' htp' (tag H subnet) j i
      rw [hbr, htp]
      exact ⟨fun _ => Or.inr (Or.inl rfl), fun _ => ⟨hb.symm, ht.symm⟩⟩
    · obtain ⟨hbr', htp'⟩ := subnetFor_tagged h' hd'
      have hlen : (tag H subnet).length = (tag H subnet').length := by
        rw [length_tag, length_tag]
      simp only [hd, hd', false_or, hbr, hbr', htp, htp', ne_eq, List.append_cancel_left_eq,
        List.append_assoc]
      constructor
      · exact fun hdisj => hdisj.1
      · intro htag
        exact ⟨htag, fun htap => htag (List.append_inj htap hlen).1⟩

end names

/-- The SHA-256 of `10.0.112.0/24` and of `10.1.2.0/24`, which begin alike, and zeros for
    every other text. -/
def collidingHash : HashString where
  sha256 t :=
    if t = "10.0.112.0/24".toList then
      "b650b2ec6d04c732226881b77160f195366bd35eb98e66d7b9d3d346ce9f7f1f".toList
    else if t = "10.1.2.0/24".toList then
      "b6505bd0b0549aa15e178e69d1962b327856c97a3cdc3a3f806f957aa7a613e3".toList
    else List.replicate 64 '0'
  length_eq t := by
    split_ifs <;> rfl
  hex t := by
    split_ifs <;> decide +kernel

/-- A default mesh beside a mesh on `10.1.2.0/24`. -/
theorem names_disjoint_iff_default :
    ∃ sn sn', subnetFor collidingHash defaultSubnet = some sn ∧
      subnetFor collidingHash "10.1.2.0/24".toList = some sn' ∧
      sn.bridge ≠ sn'.bridge ∧ sn.tapFor 0 ≠ sn'.tapFor 0 := by
  obtain ⟨sn, h⟩ := Option.isSome_iff_exists.mp
    (show (subnetFor collidingHash defaultSubnet).isSome = true by decide +kernel)
  obtain ⟨sn', h'⟩ := Option.isSome_iff_exists.mp
    (show (subnetFor collidingHash "10.1.2.0/24".toList).isSome = true by decide +kernel)
  exact ⟨sn, sn', h, h', (names_disjoint_iff h h' (by decide) 0 0).mpr (Or.inl rfl)⟩

/-- The two meshes of `collidingHash` have the same bridge. -/
theorem names_collide :
    ¬ ∀ (H : HashString) (subnet subnet' : Text) (sn sn' : Subnet),
      subnetFor H subnet = some sn → subnetFor H subnet' = some sn' → subnet ≠ subnet' →
        ∀ i j, sn.bridge ≠ sn'.bridge ∧ sn.tapFor i ≠ sn'.tapFor j := by
  intro hall
  obtain ⟨sn, h⟩ := Option.isSome_iff_exists.mp
    (show (subnetFor collidingHash "10.0.112.0/24".toList).isSome = true by decide +kernel)
  obtain ⟨sn', h'⟩ := Option.isSome_iff_exists.mp
    (show (subnetFor collidingHash "10.1.2.0/24".toList).isSome = true by decide +kernel)
  have htag : tag collidingHash "10.0.112.0/24".toList = tag collidingHash "10.1.2.0/24".toList := by
    decide +kernel
  have hbridge : sn.bridge = sn'.bridge := by
    rw [(subnetFor_tagged h (by decide)).1, (subnetFor_tagged h' (by decide)).1, htag]
  exact (hall collidingHash _ _ sn sn' h h' (by decide) 0 0).1 hbridge

end Kubenyx.Microvm
