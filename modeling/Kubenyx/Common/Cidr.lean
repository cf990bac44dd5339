import Kubenyx.Common.Decimal
import Kubenyx.Common.IpAddr

/-!
# Address blocks and their notation

A block is the set of addresses of one family that agree with a base address in a number
of leading bits. `Writes` is the notation of a block: an address, a slash and that number.
An IPv4 address is a dotted quad, an IPv6 address is eight groups of hexadecimal digits or
fewer with `::` for the zeros that are missing.

* `Block.subset_iff`: a block lies inside a shorter one exactly when the bases agree in the
  bits that the shorter one fixes.
* `carryAll_spec`: carrying from the right turns any groups into digits of the same number,
  up to what is carried out on the left.
-/

namespace Kubenyx.Common

/-! ## Groups of digits -/

/-- The number with the given groups of digits, the most significant first. -/
def ofGroups (b : ℕ) (l : List ℕ) : ℕ := Nat.ofDigits b l.reverse

/-- One pass from the right that leaves a digit in each place and carries the rest. -/
def carryAll (b : ℕ) (l : List ℕ) : ℕ × List ℕ :=
  l.foldr (fun h acc => ((h + acc.1) / b, (h + acc.1) % b :: acc.2)) (0, [])

section groups

variable {b : ℕ} {l : List ℕ}

@[simp] theorem ofGroups_nil : ofGroups b [] = 0 := rfl

@[simp] theorem ofGroups_cons (x : ℕ) : ofGroups b (x :: l) = b ^ l.length * x + ofGroups b l := by
  unfold ofGroups
  rw [List.reverse_cons, Nat.ofDigits_append, List.length_reverse, Nat.ofDigits_singleton]
  exact Nat.add_comm _ _

theorem ofGroups_lt (h : ∀ x ∈ l, x < b) : ofGroups b l < b ^ l.length := by
  induction l with
  | nil => simp
  | cons x l ih =>
    obtain ⟨hx, hl⟩ := List.forall_mem_cons.mp h
    have hrest := ih hl
    rw [ofGroups_cons, List.length_cons, pow_succ]
    calc b ^ l.length * x + ofGroups b l < b ^ l.length * x + b ^ l.length := by omega
      _ = b ^ l.length * (x + 1) := by ring
      _ ≤ b ^ l.length * b := Nat.mul_le_mul_left _ hx

/-- What the carrying keeps: the number, with the carry as its leading group, and the number
    of groups, all of which are digits now. -/
theorem carryAll_spec (hb : 0 < b) :
    b ^ l.length * (carryAll b l).1 + ofGroups b (carryAll b l).2 = ofGroups b l ∧
      (carryAll b l).2.length = l.length ∧ ∀ x ∈ (carryAll b l).2, x < b := by
  induction l with
  | nil => simp [carryAll]
  | cons h l ih =>
    obtain ⟨hvalue, hlength, hdigits⟩ := ih
    have hcons : carryAll b (h :: l) =
        ((h + (carryAll b l).1) / b, (h + (carryAll b l).1) % b :: (carryAll b l).2) := rfl
    generalize carryAll b l = acc at hvalue hlength hdigits hcons
    rw [hcons]
    refine ⟨?_, by simp [hlength], List.forall_mem_cons.mpr ⟨Nat.mod_lt _ hb, hdigits⟩⟩
    simp only [ofGroups_cons, List.length_cons, hlength]
    calc b ^ (l.length + 1) * ((h + acc.1) / b) +
          (b ^ l.length * ((h + acc.1) % b) + ofGroups b acc.2)
        = b ^ l.length * (b * ((h + acc.1) / b) + (h + acc.1) % b) + ofGroups b acc.2 := by ring
      _ = b ^ l.length * h + (b ^ l.length * acc.1 + ofGroups b acc.2) := by
          rw [Nat.div_add_mod]; ring
      _ = b ^ l.length * h + ofGroups b l := by rw [hvalue]

/-- The digits after the carrying are those of the number modulo what is carried out. -/
theorem ofGroups_carryAll (hb : 0 < b) :
    ofGroups b (carryAll b l).2 = ofGroups b l % b ^ l.length := by
  obtain ⟨hvalue, hlength, hdigits⟩ := @carryAll_spec b l hb
  have hlt := ofGroups_lt hdigits
  rw [hlength] at hlt
  rw [← hvalue, Nat.mul_add_mod, Nat.mod_eq_of_lt hlt]

/-- A number added in one place. -/
theorem ofGroups_mapIdx_add {pos n : ℕ} (h : pos < l.length) :
    ofGroups b (l.mapIdx fun i x => if i = pos then x + n else x) =
      ofGroups b l + b ^ (l.length - 1 - pos) * n := by
  induction l generalizing pos with
  | nil => simp at h
  | cons x l ih =>
    rw [List.mapIdx_cons, ofGroups_cons, List.length_mapIdx, ofGroups_cons, List.length_cons]
    cases pos with
    | zero =>
      have hrest : (l.mapIdx fun i y => if i + 1 = 0 then y + n else y) = l :=
        List.ext_getElem (by simp) (by simp)
      rw [hrest, if_pos rfl, show l.length + 1 - 1 - 0 = l.length by omega]
      ring
    | succ pos =>
      rw [List.length_cons, Nat.succ_lt_succ_iff] at h
      simp only [Nat.add_right_cancel_iff]
      rw [ih h, if_neg (by omega), show l.length + 1 - 1 - (pos + 1) = l.length - 1 - pos by omega]
      ring

end groups

/-! ## Blocks -/

/-- An address family. -/
inductive Family where
  | v4
  | v6
  deriving DecidableEq, Repr

/-- The length of an address. -/
def Family.bits : Family → ℕ
  | .v4 => 32
  | .v6 => 128

/-- A base address and the number of leading bits that it fixes. -/
structure Block where
  family : Family
  base : ℕ
  len : ℕ
  base_lt : base < 2 ^ family.bits
  len_le : len ≤ family.bits

namespace Block

/-- The number of bits that the block leaves free. -/
def free (B : Block) : ℕ := B.family.bits - B.len

/-- The addresses of the block. -/
def addresses (B : Block) : Set (Family × ℕ) :=
  {a | a.1 = B.family ∧ a.2 < 2 ^ B.family.bits ∧ a.2 / 2 ^ B.free = B.base / 2 ^ B.free}

variable {B B' : Block}

theorem base_mem (B : Block) : (B.family, B.base) ∈ B.addresses := ⟨rfl, B.base_lt, rfl⟩

theorem subset_iff (hfamily : B'.family = B.family) (hlen : B.len ≤ B'.len) :
    B'.addresses ⊆ B.addresses ↔ B'.base / 2 ^ B.free = B.base / 2 ^ B.free := by
  constructor
  · intro hsub
    exact (hsub B'.base_mem).2.2
  · rintro hbase ⟨f, n⟩ ⟨hf, hlt, hn⟩
    refine ⟨hf.trans hfamily, by rw [← hfamily]; exact hlt, ?_⟩
    -- dropping more bits of two equal quotients leaves them equal
    have hfree : 2 ^ B.free = 2 ^ B'.free * 2 ^ (B'.len - B.len) := by
      have hle := B'.len_le
      rw [← pow_add]
      unfold free
      rw [hfamily] at hle ⊢
      congr 1
      omega
    show n / 2 ^ B.free = B.base / 2 ^ B.free
    rw [← hbase, hfree, ← Nat.div_div_eq_div_mul, ← Nat.div_div_eq_div_mul, hn]

theorem disjoint_of_ne (hfamily : B'.family = B.family) (hlen : B'.len = B.len)
    (hne : B'.base / 2 ^ B.free ≠ B.base / 2 ^ B.free) : Disjoint B'.addresses B.addresses := by
  have hfree : B'.free = B.free := by
    unfold free
    rw [hfamily, hlen]
  rw [Set.disjoint_left]
  rintro ⟨f, n⟩ ⟨-, -, hn'⟩ ⟨-, -, hn⟩
  rw [hfree] at hn'
  exact hne (hn'.symm.trans hn)

end Block

/-! ## Notation -/

/-- Four octets in decimal, with dots between them. -/
structure DottedQuad (t : Text) (os : List ℕ) : Prop where
  length_eq : os.length = 4
  octet_lt : ∀ o ∈ os, o < 256
  text_eq : t = joined '.' (os.map decimal)

/-- One to four hexadecimal digits, leading zeros and either case allowed. -/
structure HexGroup (g : Text) (n : ℕ) : Prop where
  ne_nil : g ≠ []
  length_le : g.length ≤ 4
  digits : ∃ ds, List.Forall₂ (fun c d => IpAddr.toDigit 16 c = some d) g ds ∧ n = ofGroups 16 ds

/-- Eight groups with colons between them, or fewer with `::` for one or more zeros. -/
inductive HextetLiteral : Text → List ℕ → Prop
  | full {gs : List Text} {hs : List ℕ} (hgroups : List.Forall₂ HexGroup gs hs)
      (hlen : hs.length = 8) : HextetLiteral (joined ':' gs) hs
  | compressed {ls rs : List Text} {hl hr : List ℕ} (hleft : List.Forall₂ HexGroup ls hl)
      (hright : List.Forall₂ HexGroup rs hr) (hlen : hl.length + hr.length ≤ 7) :
      HextetLiteral (joined ':' ls ++ ':' :: ':' :: joined ':' rs)
        (hl ++ List.replicate (8 - hl.length - hr.length) 0 ++ hr)

/-- The notation of an address of a family. -/
def WritesAddress : Family → Text → ℕ → Prop
  | .v4, t, n => ∃ os, DottedQuad t os ∧ n = ofGroups 256 os
  | .v6, t, n => ∃ hs, HextetLiteral t hs ∧ n = ofGroups 65536 hs

/-- The notation of a block. -/
def Writes (t : Text) (B : Block) : Prop :=
  ∃ lit, WritesAddress B.family lit B.base ∧ t = lit ++ '/' :: decimal B.len

/-! ## Hexadecimal digits -/

theorem lt_of_toDigit {c : Char} {d : ℕ} (h : IpAddr.toDigit 16 c = some d) : c.toNat < 128 := by
  unfold IpAddr.toDigit at h
  dsimp only at h
  split_ifs at h with hdigit hsmall hlower hsmall hupper hsmall
  · have : c.toNat ≤ 57 := (Char.isDigit_iff_toNat.mp hdigit).2
    omega
  · have : c.toNat ≤ 122 := hlower.2
    omega
  · have : c.toNat ≤ 90 := hupper.2
    omega
  · omega

theorem digit_lt {c : Char} {d : ℕ} (h : IpAddr.toDigit 16 c = some d) : d < 16 := by
  unfold IpAddr.toDigit at h
  dsimp only at h
  split_ifs at h with hdigit hsmall hlower hsmall hupper hsmall <;> cases h <;> assumption

theorem lt_of_digits {s : Text} {ds : List ℕ}
    (h : List.Forall₂ (fun c d => IpAddr.toDigit 16 c = some d) s ds) : ∀ d ∈ ds, d < 16 := by
  induction h with
  | nil => simp
  | cons hc _ ih => exact List.forall_mem_cons.mpr ⟨digit_lt hc, ih⟩

theorem ofGroups_digits_lt {s : Text} {ds : List ℕ}
    (h : List.Forall₂ (fun c d => IpAddr.toDigit 16 c = some d) s ds) :
    ofGroups 16 ds < 16 ^ s.length := by
  rw [h.length_eq]
  exact ofGroups_lt (lt_of_digits h)

theorem HexGroup.lt {g : Text} {n : ℕ} (h : HexGroup g n) : n < 65536 := by
  obtain ⟨ds, hds, rfl⟩ := h.digits
  calc ofGroups 16 ds < 16 ^ g.length := ofGroups_digits_lt hds
    _ ≤ 16 ^ 4 := Nat.pow_le_pow_right (by decide) h.length_le

theorem HextetLiteral.lt {t : Text} {hs : List ℕ} (h : HextetLiteral t hs) : ∀ h ∈ hs, h < 65536 := by
  have hgroups : ∀ {gs : List Text} {hs : List ℕ}, List.Forall₂ HexGroup gs hs →
      ∀ h ∈ hs, h < 65536 := by
    intro gs hs hall
    induction hall with
    | nil => simp
    | cons hg _ ih => exact List.forall_mem_cons.mpr ⟨hg.lt, ih⟩
  cases h with
  | full hall => exact hgroups hall
  | compressed hleft hright =>
    simp only [List.forall_mem_append]
    refine ⟨⟨hgroups hleft, fun h hh => ?_⟩, hgroups hright⟩
    rw [List.eq_of_mem_replicate hh]
    decide

theorem digits_toDigits (n : ℕ) :
    ∃ ds, List.Forall₂ (fun c d => IpAddr.toDigit 16 c = some d) (Nat.toDigits 16 n) ds ∧
      n = ofGroups 16 ds := by
  have hchar : ∀ d < 16, IpAddr.toDigit 16 d.digitChar = some d := by decide
  induction n using Nat.strong_induction_on with
  | _ n ih =>
    by_cases hlt : n < 16
    · rw [Nat.toDigits_of_lt_base hlt]
      exact ⟨[n], .cons (hchar n hlt) .nil, by simp⟩
    · obtain ⟨ds, hds, hn⟩ := ih (n / 16) (by omega)
      rw [Nat.toDigits_of_base_le (by decide) (by omega)]
      refine ⟨ds ++ [n % 16], List.rel_append hds (.cons (hchar _ (by omega)) .nil), ?_⟩
      have hsnoc : ofGroups 16 (ds ++ [n % 16]) = n % 16 + 16 * ofGroups 16 ds := by
        simp [ofGroups, Nat.ofDigits_cons]
      omega

theorem hexGroup_toDigits {h : ℕ} (hlt : h < 65536) : HexGroup (Nat.toDigits 16 h) h where
  ne_nil := Nat.toDigits_ne_nil
  length_le := (Nat.length_toDigits_le_iff (by decide) (by decide)).mpr hlt
  digits := digits_toDigits h

/-! ## Characters of an address -/

theorem toDigit_of_mem {s : Text} {ds : List ℕ}
    (h : List.Forall₂ (fun c d => IpAddr.toDigit 16 c = some d) s ds) {c : Char} (hc : c ∈ s) :
    (IpAddr.toDigit 16 c).isSome = true := by
  induction h with
  | nil => simp at hc
  | cons hcd _ ih =>
    rcases List.mem_cons.mp hc with rfl | hc
    · rw [hcd]
      rfl
    · exact ih hc

theorem mem_joined_decimal {sep c : Char} {ns : List ℕ} (h : c ∈ joined sep (ns.map decimal)) :
    c = sep ∨ c.isDigit = true := by
  refine (mem_joined h).imp_right ?_
  rintro ⟨t, ht, hc⟩
  obtain ⟨n, -, rfl⟩ := List.mem_map.mp ht
  exact isDigit_of_mem_decimal hc

/-- An IPv4 address is of digits and dots. -/
theorem DottedQuad.mem {t : Text} {os : List ℕ} (h : DottedQuad t os) {c : Char} (hc : c ∈ t) :
    c = '.' ∨ c.isDigit = true := by
  rw [h.text_eq] at hc
  exact mem_joined_decimal hc

theorem mem_joined_hexGroups {gs : List Text} {hs : List ℕ} (h : List.Forall₂ HexGroup gs hs)
    {c : Char} (hc : c ∈ joined ':' gs) : c = ':' ∨ (IpAddr.toDigit 16 c).isSome = true := by
  refine (mem_joined hc).imp_right ?_
  rintro ⟨g, hg, hc⟩
  clear * - h hg hc
  induction h with
  | nil => simp at hg
  | cons hgroup _ ih =>
    rcases List.mem_cons.mp hg with rfl | hg
    · obtain ⟨ds, hds, -⟩ := hgroup.digits
      exact toDigit_of_mem hds hc
    · exact ih hg

/-- An IPv6 address is of hexadecimal digits and colons. -/
theorem HextetLiteral.mem {t : Text} {hs : List ℕ} (h : HextetLiteral t hs) {c : Char}
    (hc : c ∈ t) : c = ':' ∨ (IpAddr.toDigit 16 c).isSome = true := by
  cases h with
  | full hgroups => exact mem_joined_hexGroups hgroups hc
  | compressed hleft hright =>
    simp only [List.mem_append, List.mem_cons] at hc
    rcases hc with hc | rfl | rfl | hc
    · exact mem_joined_hexGroups hleft hc
    · exact Or.inl rfl
    · exact Or.inl rfl
    · exact mem_joined_hexGroups hright hc

theorem HextetLiteral.length_eq {t : Text} {hs : List ℕ} (h : HextetLiteral t hs) :
    hs.length = 8 := by
  cases h with
  | full hgroups hlen => exact hlen
  | compressed hleft hright hlen =>
    simp only [List.length_append, List.length_replicate]
    omega

theorem HextetLiteral.colon_mem {t : Text} {hs : List ℕ} (h : HextetLiteral t hs) : ':' ∈ t := by
  cases h with
  | @full gs hs hgroups hlen =>
    match gs, hgroups.length_eq.trans hlen with
    | g :: g' :: gs, _ => simp [joined]
  | compressed => simp

end Kubenyx.Common
