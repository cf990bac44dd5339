import Kubenyx.Net.Hextets

/-!
# Carving address blocks

An IPv6 address is never one integer of Nix: `v6Add` adds in one hextet and carries to the
left, and `nodePodCidr` splits its shift into a position and a scale.

* `v6_arithmetic`: both come out as addition modulo `2 ^ 128` on the address as a number, and
  so does `cidrHost`.
* `writes_nodePodCidr_v4`, `writes_nodePodCidr_v6`: the block that is written for the pod
  subnet with an index.
-/

namespace Kubenyx.Net

open Kubenyx.Common

theorem pow2_eq (n : ℕ) : pow2 n = 2 ^ n := by
  induction n with
  | zero => rfl
  | succ n ih => rw [pow2, ih, pow_succ, Nat.mul_comm]

theorem evalPow2_natCast {n : ℕ} (h : n < 63) : evalPow2 n = some (2 ^ n) := by
  unfold evalPow2
  rw [if_neg (by omega), Int.toNat_natCast, pow2_eq]
  exact nat64_of_lt (Nat.pow_lt_pow_right (by decide) h)

/-! ## Adding in a hextet -/

/-- The hextets with the number added at its position, before carrying. -/
def added (hextets : List ℕ) (pos : ℤ) (n : ℕ) : List ℕ :=
  hextets.mapIdx fun i h => if (i : ℤ) = pos then h + n else h

section add

variable {hs : List ℕ} {pos : ℤ} {n : ℕ}

theorem mapIdx_shift {α : Type} (f g : ℕ → α) (pos : ℤ) (hs : List ℕ) :
    (hs.mapIdx fun i h => if ((i + 1 : ℕ) : ℤ) = pos then f h else g h) =
      hs.mapIdx fun i h => if (i : ℤ) = pos - 1 then f h else g h := by
  refine List.ext_getElem (by simp) fun i h₁ h₂ => ?_
  simp only [List.getElem_mapIdx]
  refine if_congr ?_ rfl rfl
  omega

theorem addends_cons (h : ℕ) (hs : List ℕ) (pos : ℤ) (n : ℕ) :
    addends (h :: hs) pos (some n) =
      (if pos = 0 then nat64 (h + n) else some h) :: addends hs (pos - 1) (some n) := by
  unfold addends
  rw [List.mapIdx_cons, mapIdx_shift (fun h => (some n).bind fun n => nat64 (h + n)) some]
  congr 1
  exact if_congr (by omega) rfl rfl

theorem added_cons (h : ℕ) (hs : List ℕ) (pos : ℤ) (n : ℕ) :
    added (h :: hs) pos n = (if pos = 0 then h + n else h) :: added hs (pos - 1) n := by
  unfold added
  rw [List.mapIdx_cons, mapIdx_shift (· + n) fun h => h]
  congr 1
  exact if_congr (by omega) rfl rfl

theorem carryAll_cons (h : ℕ) (l : List ℕ) :
    carryAll 65536 (h :: l) = ((h + (carryAll 65536 l).1) / 65536,
      (h + (carryAll 65536 l).1) % 65536 :: (carryAll 65536 l).2) := rfl

/-- The checked fold is the pass of carrying: to the right of the position nothing is carried,
    and to the left of it only what the large sum leaves. -/
theorem foldr_carryStep (hlt : ∀ h ∈ hs, h < 65536) (hn : n + 65536 ≤ 2 ^ 63) :
    (addends hs pos (some n)).foldr carryStep (some (0, [])) = some (carryAll 65536 (added hs pos n)) ∧
      (carryAll 65536 (added hs pos n)).1 < 2 ^ 48 ∧
      (pos < 0 → (carryAll 65536 (added hs pos n)).1 = 0) := by
  induction hs generalizing pos with
  | nil => exact ⟨rfl, Nat.two_pow_pos 48, fun _ => rfl⟩
  | cons h hs ih =>
    obtain ⟨hh, hhs⟩ := List.forall_mem_cons.mp hlt
    obtain ⟨hfold, hcarry, hzero⟩ := @ih (pos - 1) hhs
    rw [addends_cons, added_cons, List.foldr_cons, hfold, carryAll_cons]
    generalize carryAll 65536 (added hs (pos - 1) n) = acc at hcarry hzero
    by_cases hpos : pos = 0
    · have hnone := hzero (by omega)
      rw [if_pos hpos, if_pos hpos, nat64_of_lt (by omega)]
      refine ⟨?_, by dsimp only; omega, by omega⟩
      show (nat64 (h + n + acc.1)).bind _ = _
      rw [nat64_of_lt (by omega)]
      rfl
    · rw [if_neg hpos, if_neg hpos]
      refine ⟨?_, by dsimp only; omega, fun hneg => ?_⟩
      · show (nat64 (h + acc.1)).bind _ = _
        rw [nat64_of_lt (by omega)]
        rfl
      · have hnone := hzero (by omega)
        dsimp only
        omega

/-- `v6Add` does not overflow as long as the number leaves room for a hextet, and keeps the
    number up to what is carried out on the left. -/
theorem v6Add_added (hlen : hs.length = 8) (hlt : ∀ h ∈ hs, h < 65536) (hn : n + 65536 ≤ 2 ^ 63) :
    ∃ sum, v6Add hs pos (some n) = some sum ∧ sum.length = 8 ∧ (∀ h ∈ sum, h < 65536) ∧
      ofGroups 65536 sum = ofGroups 65536 (added hs pos n) % 2 ^ 128 := by
  have hlength : (added hs pos n).length = 8 := by
    unfold added
    rw [List.length_mapIdx, hlen]
  obtain ⟨-, hsum, hdigits⟩ := @carryAll_spec 65536 (added hs pos n) (by decide)
  refine ⟨(carryAll 65536 (added hs pos n)).2, ?_, hsum.trans hlength, hdigits, ?_⟩
  · unfold v6Add
    rw [(foldr_carryStep hlt hn).1]
    rfl
  · rw [ofGroups_carryAll (by decide), hlength]
    rfl

/-- `v6Add` adds modulo the number of addresses. -/
theorem v6Add_spec {pos : ℕ} (hlen : hs.length = 8) (hlt : ∀ h ∈ hs, h < 65536) (hpos : pos < 8)
    (hn : n + 65536 ≤ 2 ^ 63) :
    ∃ sum, v6Add hs pos (some n) = some sum ∧ sum.length = 8 ∧ (∀ h ∈ sum, h < 65536) ∧
      ofGroups 65536 sum = (ofGroups 65536 hs + 65536 ^ (7 - pos) * n) % 2 ^ 128 := by
  have hadded : ofGroups 65536 (added hs pos n) = ofGroups 65536 hs + 65536 ^ (7 - pos) * n := by
    unfold added
    simp only [Nat.cast_inj]
    rw [ofGroups_mapIdx_add (by omega), hlen]
  rw [← hadded]
  exact v6Add_added hlen hlt hn

/-- Left of all hextets nothing is added. -/
theorem v6Add_outside (hlen : hs.length = 8) (hlt : ∀ h ∈ hs, h < 65536)
    (hn : n + 65536 ≤ 2 ^ 63) :
    ∃ sum, v6Add hs (-1) (some n) = some sum ∧ sum.length = 8 ∧ (∀ h ∈ sum, h < 65536) ∧
      ofGroups 65536 sum = ofGroups 65536 hs % 2 ^ 128 := by
  have hadded : added hs (-1) n = hs := by
    unfold added
    refine List.ext_getElem (by simp) fun i h₁ h₂ => ?_
    rw [List.getElem_mapIdx, if_neg (by omega)]
  have hsum := @v6Add_added hs (-1) n hlen hlt hn
  rwa [hadded] at hsum

/-- The shift of a carve is a number of hextets and a scale within one. -/
theorem v6Add_shift {shift : ℕ} (hlen : hs.length = 8) (hlt : ∀ h ∈ hs, h < 65536)
    (hshift : shift ≤ 128) (hn : n * 2 ^ (shift % 16) + 65536 ≤ 2 ^ 63) :
    ∃ sum, v6Add hs (7 - (shift : ℤ).tdiv 16) (some (n * 2 ^ (shift % 16))) = some sum ∧
      sum.length = 8 ∧ (∀ h ∈ sum, h < 65536) ∧
      ofGroups 65536 sum = (ofGroups 65536 hs + n * 2 ^ shift) % 2 ^ 128 := by
  have hdiv : (shift : ℤ).tdiv 16 = (shift / 16 : ℕ) := rfl
  by_cases hall : shift = 128
  · -- the whole address is the index's share, and the position lies outside
    subst hall
    obtain ⟨sum, hadd, hlength, hdigits, hvalue⟩ := v6Add_outside hlen hlt hn
    refine ⟨sum, hadd, hlength, hdigits, ?_⟩
    rw [hvalue, Nat.add_mul_mod_self_right]
  · have hpos : (7 : ℤ) - (shift / 16 : ℕ) = (7 - shift / 16 : ℕ) := by omega
    rw [hdiv, hpos]
    obtain ⟨sum, hadd, hlength, hdigits, hvalue⟩ :=
      @v6Add_spec hs _ (7 - shift / 16) hlen hlt (by omega) hn
    refine ⟨sum, hadd, hlength, hdigits, ?_⟩
    have hweight : 65536 ^ (7 - (7 - shift / 16)) * (n * 2 ^ (shift % 16)) = n * 2 ^ shift := by
      calc 65536 ^ (7 - (7 - shift / 16)) * (n * 2 ^ (shift % 16))
          = (2 ^ 16) ^ (shift / 16) * (n * 2 ^ (shift % 16)) := by
            rw [show 7 - (7 - shift / 16) = shift / 16 by omega]
            rfl
        _ = n * 2 ^ (16 * (shift / 16) + shift % 16) := by
            rw [← pow_mul, pow_add]
            ring
        _ = n * 2 ^ shift := by rw [Nat.div_add_mod]
    rw [hvalue, hweight]

end add

/-! ## The notation of a block -/

section block

variable {c lit : Text} {f : Family} {n : ℕ} {B : Block}

theorem slash_not_mem (h : WritesAddress f lit n) : '/' ∉ lit := by
  intro hmem
  cases f with
  | v4 =>
    obtain ⟨os, hos, -⟩ := h
    exact absurd (hos.mem hmem) (by decide)
  | v6 =>
    obtain ⟨hs, hhs, -⟩ := h
    exact absurd (hhs.mem hmem) (by decide)

theorem colon_mem_iff (h : WritesAddress f lit n) : ':' ∈ lit ↔ f = .v6 := by
  cases f with
  | v4 =>
    obtain ⟨os, hos, -⟩ := h
    refine iff_of_false (fun hmem => ?_) (by decide)
    exact absurd (hos.mem hmem) (by decide)
  | v6 =>
    obtain ⟨hs, hhs, -⟩ := h
    exact iff_of_true hhs.colon_mem rfl

/-- What the functions read of a block in its notation. -/
theorem writes_read (h : Writes c B) :
    WritesAddress B.family (cidrBase c) B.base ∧ cidrPrefix c = some (B.len : ℤ) ∧
      (isV6 c = true ↔ B.family = .v6) := by
  obtain ⟨lit, hlit, rfl⟩ := h
  have hsplit : (lit ++ '/' :: decimal B.len).splitOn '/' = [lit, decimal B.len] := by
    rw [List.splitOn_append_cons_self_of_not_mem (slash_not_mem hlit),
      List.splitOn_eq_singleton (not_mem_decimal (by decide) _)]
  have hlen : B.len < 2 ^ 63 := by
    have hbits : B.family.bits ≤ 128 := by cases B.family <;> decide
    have := B.len_le
    omega
  refine ⟨?_, ?_, ?_⟩
  · unfold cidrBase
    rw [hsplit]
    exact hlit
  · unfold cidrPrefix
    rw [hsplit]
    exact toInt_decimal hlen
  · have hcolon : ':' ∉ decimal B.len := not_mem_decimal (by decide) _
    unfold isV6
    simp [hcolon, colon_mem_iff hlit]

theorem writes_iff (hslash : '/' ∉ lit) :
    Writes (lit ++ '/' :: decimal n) B ↔ WritesAddress B.family lit B.base ∧ B.len = n := by
  constructor
  · rintro ⟨lit', hlit', heq⟩
    have hparts := congrArg (List.splitOn '/') heq
    rw [List.splitOn_append_cons_self_of_not_mem hslash,
      List.splitOn_append_cons_self_of_not_mem (slash_not_mem hlit'),
      List.splitOn_eq_singleton (not_mem_decimal (by decide) _),
      List.splitOn_eq_singleton (not_mem_decimal (by decide) _)] at hparts
    simp only [List.cons.injEq, and_true] at hparts
    obtain ⟨rfl, hlen⟩ := hparts
    exact ⟨hlit', (decimal_injective hlen).symm⟩
  · rintro ⟨hlit, rfl⟩
    exact ⟨lit, hlit, rfl⟩

/-- `intToIp` writes the address, and no other, as long as there is one with the number. -/
theorem writesAddress_intToIp (h : n < 2 ^ 63) :
    WritesAddress B.family (intToIp n) B.base ↔ B.family = .v4 ∧ B.base = n := by
  have hread := ipToInt_intToIp h
  constructor
  · intro haddr
    have hcolon : ':' ∉ intToIp n := fun hmem => absurd (mem_intToIp hmem) (by decide)
    have hf : B.family = .v4 := by
      cases hB : B.family with
      | v4 => rfl
      | v6 => exact absurd ((colon_mem_iff haddr).mpr hB) hcolon
    rw [hf] at haddr
    obtain ⟨os, hos, hbase⟩ := haddr
    rw [ipToInt_dottedQuad hos, ← hbase] at hread
    exact ⟨hf, by simpa using hread⟩
  · rintro ⟨hf, rfl⟩
    have hlt := B.base_lt
    rw [hf] at hlt ⊢
    exact ⟨_, dottedQuad_intToIp hlt, (ofGroups_octets _).symm⟩

theorem writesAddress_hextetsToV6 {hs : List ℕ} (hlen : hs.length = 8)
    (hlt : ∀ h ∈ hs, h < 65536) :
    WritesAddress B.family (hextetsToV6 hs) B.base ↔
      B.family = .v6 ∧ B.base = ofGroups 65536 hs := by
  have hlit := hextetLiteral_hextetsToV6 hlen hlt
  constructor
  · intro haddr
    have hf := (colon_mem_iff haddr).mp hlit.colon_mem
    rw [hf] at haddr
    obtain ⟨hs', hhs', hbase⟩ := haddr
    have hsame := (v6ToHextets_literal hhs').symm.trans (v6ToHextets_literal hlit)
    rw [hbase, Option.some.inj hsame]
    exact ⟨hf, rfl⟩
  · rintro ⟨hf, hbase⟩
    rw [hf, hbase]
    exact ⟨hs, hlit, rfl⟩

theorem nodePodCidr_of_ipToInt {base shift nodeMask i : ℕ} (hv4 : isV6 c = false)
    (hbase : ipToInt (cidrBase c) = some (base : ℤ)) (hshift : shift + nodeMask = 32)
    (hsum : base + 2 ^ shift * i < 2 ^ 63) :
    nodePodCidr c nodeMask i =
      some (intToIp (base + 2 ^ shift * i : ℕ) ++ '/' :: decimal nodeMask) := by
  have hscale : evalPow2 (32 - (nodeMask : ℤ)) = some (2 ^ shift) := by
    rw [show (32 - (nodeMask : ℤ)) = (shift : ℤ) by omega]
    exact evalPow2_natCast (by omega)
  have hstep : nat64 (i * 2 ^ shift) = some (2 ^ shift * i) := by
    rw [Nat.mul_comm]
    exact nat64_of_lt (by omega)
  have hint : int64 ((base : ℤ) + (2 ^ shift * i : ℕ)) = some ((base + 2 ^ shift * i : ℕ) : ℤ) := by
    rw [← Nat.cast_add]
    exact int64_of_nonneg (Int.natCast_nonneg _) (by omega)
  unfold nodePodCidr
  rw [if_neg (by rw [hv4]; exact Bool.false_ne_true), hbase, hscale]
  show (nat64 (i * 2 ^ shift)).bind _ = _
  rw [hstep, Option.bind_some, hint]
  rfl

/-- The pod subnets of an IPv4 block begin in steps of 256 addresses from its base. -/
theorem writes_nodePodCidr_v4 (h : Writes c B) (hf : B.family = .v4) {i : ℕ} (hi : i < 256)
    {P : Block} :
    (∃ t, nodePodCidr c 24 i = some t ∧ Writes t P) ↔
      P.family = .v4 ∧ P.base = B.base + 2 ^ 8 * i ∧ P.len = 24 := by
  obtain ⟨haddr, -, hv6⟩ := writes_read h
  have hlt := B.base_lt
  rw [hf] at haddr hlt
  obtain ⟨os, hos, hbase⟩ := haddr
  have hsum : B.base + 2 ^ 8 * i < 2 ^ 63 := by
    have : Family.v4.bits = 32 := rfl
    rw [this] at hlt
    omega
  have hcidr : nodePodCidr c 24 i =
      some (intToIp (B.base + 2 ^ 8 * i : ℕ) ++ '/' :: decimal 24) := by
    refine nodePodCidr_of_ipToInt (by rw [← Bool.not_eq_true, hv6, hf]; decide) ?_ (by decide) hsum
    rw [ipToInt_dottedQuad hos, ← hbase]
  rw [hcidr]
  simp only [Option.some.injEq, exists_eq_left']
  rw [writes_iff fun hmem => absurd (mem_intToIp hmem) (by decide), writesAddress_intToIp hsum, and_assoc]

theorem nodePodCidr_of_v6ToHextets {hs : List ℕ} {nodeMask i : ℕ} (hv6 : isV6 c = true)
    (hread : v6ToHextets (cidrBase c) = some hs) (hlen : hs.length = 8)
    (hlt : ∀ h ∈ hs, h < 65536) (hmask : nodeMask ≤ 128)
    (hi : i * 2 ^ ((128 - nodeMask) % 16) + 65536 ≤ 2 ^ 63) :
    ∃ sum, nodePodCidr c nodeMask i = some (hextetsToV6 sum ++ '/' :: decimal nodeMask) ∧
      sum.length = 8 ∧ (∀ h ∈ sum, h < 65536) ∧
      ofGroups 65536 sum = (ofGroups 65536 hs + i * 2 ^ (128 - nodeMask)) % 2 ^ 128 := by
  obtain ⟨sum, hadd, hspec⟩ := v6Add_shift hlen hlt (Nat.sub_le 128 nodeMask) hi
  have hshift : (128 : ℤ) - nodeMask = (128 - nodeMask : ℕ) := by omega
  have hscale : evalPow2 (((128 - nodeMask : ℕ) : ℤ).tmod 16) =
      some (2 ^ ((128 - nodeMask) % 16)) :=
    evalPow2_natCast ((Nat.mod_lt _ (by decide)).trans (by decide))
  have hstep : nat64 (i * 2 ^ ((128 - nodeMask) % 16)) =
      some (i * 2 ^ ((128 - nodeMask) % 16)) := nat64_of_lt (by omega)
  refine ⟨sum, ?_, hspec⟩
  unfold nodePodCidr
  rw [if_pos hv6, hread, hshift]
  dsimp only
  rw [hscale, Option.bind_some, hstep]
  dsimp only [Option.bind_eq_bind, Option.bind_some]
  rw [hadd]
  rfl

/-- Those of an IPv6 block begin in steps of the whole fourth hextet, and past the last
    address again at zero. -/
theorem writes_nodePodCidr_v6 (h : Writes c B) (hf : B.family = .v6) {i : ℕ} (hi : i < 256)
    {P : Block} :
    (∃ t, nodePodCidr c 64 i = some t ∧ Writes t P) ↔
      P.family = .v6 ∧ P.base = (B.base + 2 ^ 64 * i) % 2 ^ 128 ∧ P.len = 64 := by
  obtain ⟨haddr, -, hv6⟩ := writes_read h
  rw [hf] at haddr
  obtain ⟨hs, hhs, hbase⟩ := haddr
  obtain ⟨sum, hcidr, hlen, hlt, hvalue⟩ := @nodePodCidr_of_v6ToHextets c hs 64 i (hv6.mpr hf)
    (v6ToHextets_literal hhs) hhs.length_eq hhs.lt (by decide)
    (by rw [show i * 2 ^ ((128 - 64) % 16) = i from Nat.mul_one i]; omega)
  have hslash : '/' ∉ hextetsToV6 sum := fun hmem =>
    absurd ((hextetLiteral_hextetsToV6 hlen hlt).mem hmem) (by decide)
  rw [hcidr]
  simp only [Option.some.injEq, exists_eq_left']
  rw [writes_iff hslash, writesAddress_hextetsToV6 hlen hlt, hvalue, ← hbase, and_assoc,
    Nat.mul_comm]

end block

variable {c : Text} {hs : List ℕ} {n : ℕ}

/-! ## Bases that are read -/

theorem mem_of_mem_cidrBase {a : Char} (h : a ∈ cidrBase c) : a ∈ c := by
  have hjoin : joined '/' (c.splitOn '/') = c := List.intercalate_splitOn '/'
  obtain ⟨p, ps, hsplit⟩ := List.exists_cons_of_ne_nil (List.splitOn_ne_nil '/' c)
  unfold cidrBase at h
  rw [hsplit] at h hjoin
  rw [← hjoin]
  exact mem_joined_of_mem List.mem_cons_self h

/-- Eight groups need a colon between them. -/
theorem colon_mem_of_v6ToHextets {t : Text} (h : v6ToHextets t = some hs) : ':' ∈ t := by
  by_contra hcolon
  have hsplit : splitPair ':' t = [t] := by simpa [splitPair] using splitPair_append hcolon []
  obtain ⟨l, hl, hlen, -⟩ | ⟨l, r, _, _, hlr, -⟩ := v6ToHextets_eq_some.mp h
  · obtain rfl : t = l := by simpa using hsplit.symm.trans hl
    have hle : (groups t).length ≤ [t].length := by
      unfold groups
      rw [List.splitOn_eq_singleton hcolon]
      exact List.length_filter_le _ _
    rw [hlen, List.length_singleton] at hle
    exact absurd hle (by decide)
  · simpa using hsplit.symm.trans hlr

theorem isV6_of_v6ToHextets (h : v6ToHextets (cidrBase c) = some hs) : isV6 c = true :=
  List.contains_iff_mem.mpr (mem_of_mem_cidrBase (colon_mem_of_v6ToHextets h))

/-! ## Host addresses -/

theorem cidrHost_of_v6ToHextets (hread : v6ToHextets (cidrBase c) = some hs)
    (hlt : ∀ h ∈ hs, h < 65536) (hn : n + 65536 ≤ 2 ^ 63) :
    ∃ sum, cidrHost c n = some (hextetsToV6 sum) ∧ sum.length = 8 ∧ (∀ h ∈ sum, h < 65536) ∧
      ofGroups 65536 sum = (ofGroups 65536 hs + n) % 2 ^ 128 := by
  obtain ⟨sum, hadd, hlength, hdigits, hvalue⟩ :=
    @v6Add_spec hs n 7 (length_of_v6ToHextets hread) hlt (by decide) hn
  refine ⟨sum, ?_, hlength, hdigits, ?_⟩
  · unfold cidrHost
    rw [if_pos (isV6_of_v6ToHextets hread), hread]
    show (v6Add hs ((7 : ℕ) : ℤ) (some n)).bind _ = _
    rw [hadd]
    rfl
  · rw [hvalue, Nat.sub_self, pow_zero, Nat.one_mul]

/-! ## Addition modulo the number of addresses -/

/-- Adding in a hextet, carving a node's block and counting hosts are addition of the
    addresses' numbers, for every base that is read, every position and every mask. -/
theorem v6_arithmetic (hlen : hs.length = 8) (hlt : ∀ h ∈ hs, h < 65536) :
    (∀ pos ≤ 7, ∀ n, n + 131071 < 2 ^ 63 → ∃ sum, v6Add hs (pos : ℕ) (some n) = some sum ∧
        sum.length = 8 ∧ (∀ h ∈ sum, h ≤ 65535) ∧
        ofGroups 65536 sum = (ofGroups 65536 hs + n * 2 ^ (16 * (7 - pos))) % 2 ^ 128) ∧
      ∀ cidr, v6ToHextets (cidrBase cidr) = some hs →
        (∀ nodeMask ≤ 128, ∀ index, index * 2 ^ ((128 - nodeMask) % 16) + 131071 < 2 ^ 63 →
          ∃ addr, nodePodCidr cidr nodeMask index = some (addr ++ '/' :: decimal nodeMask) ∧
            WritesAddress .v6 addr
              ((ofGroups 65536 hs + index * 2 ^ (128 - nodeMask)) % 2 ^ 128)) ∧
        ∀ n, n + 131071 < 2 ^ 63 → ∃ addr, cidrHost cidr n = some addr ∧
          WritesAddress .v6 addr ((ofGroups 65536 hs + n) % 2 ^ 128) := by
  refine ⟨fun pos hpos n hn => ?_, fun cidr hread => ⟨fun nodeMask hmask index hindex => ?_,
    fun n hn => ?_⟩⟩
  · obtain ⟨sum, hadd, hlength, hdigits, hvalue⟩ :=
      @v6Add_spec hs n pos hlen hlt (by omega) (by omega)
    have hweight : 65536 ^ (7 - pos) = 2 ^ (16 * (7 - pos)) := by
      rw [pow_mul]
      rfl
    refine ⟨sum, hadd, hlength, fun h hh => Nat.le_of_lt_succ (hdigits h hh), ?_⟩
    rw [hvalue, hweight, Nat.mul_comm]
  · have hbound : index * 2 ^ ((128 - nodeMask) % 16) + 65536 ≤ 2 ^ 63 := by omega
    obtain ⟨sum, hcarve, hlength, hdigits, hvalue⟩ := nodePodCidr_of_v6ToHextets
      (isV6_of_v6ToHextets hread) hread hlen hlt hmask hbound
    exact ⟨_, hcarve, sum, hextetLiteral_hextetsToV6 hlength hdigits, hvalue.symm⟩
  · have hbound : n + 65536 ≤ 2 ^ 63 := by omega
    obtain ⟨sum, hhost, hlength, hdigits, hvalue⟩ := cidrHost_of_v6ToHextets hread hlt hbound
    exact ⟨_, hhost, sum, hextetLiteral_hextetsToV6 hlength hdigits, hvalue.symm⟩

/-- The last address of all: the carry runs through every hextet and out on the left. -/
theorem v6_arithmetic_lastAddress :
    (∃ sum, v6Add (List.replicate 8 65535) 7 (some 1) = some sum ∧ ofGroups 65536 sum = 0) ∧
      (∃ addr, nodePodCidr "ffff:ffff:ffff:ffff:ffff:ffff:ffff:ffff/128".toList 3 9 =
          some (addr ++ "/3".toList) ∧ WritesAddress .v6 addr (2 ^ 125 - 1)) ∧
      ∃ addr, cidrHost "ffff:ffff:ffff:ffff:ffff:ffff:ffff:ffff/128".toList 2 = some addr ∧
        WritesAddress .v6 addr 1 := by
  obtain ⟨hadd, hcidr⟩ := @v6_arithmetic (List.replicate 8 65535) (by decide) (by decide)
  obtain ⟨hcarve, hhost⟩ := hcidr "ffff:ffff:ffff:ffff:ffff:ffff:ffff:ffff/128".toList
    (by decide +kernel)
  have hlast : ofGroups 65536 (List.replicate 8 65535) = 2 ^ 128 - 1 := by decide +kernel
  rw [hlast] at hadd hcarve hhost
  refine ⟨?_, ?_, ?_⟩
  · obtain ⟨sum, hsum, -, -, hvalue⟩ := hadd 7 (by decide) 1 (by decide)
    exact ⟨sum, hsum, hvalue⟩
  · exact hcarve 3 (by decide) 9 (by decide)
  · exact hhost 2 (by decide)

end Kubenyx.Net
