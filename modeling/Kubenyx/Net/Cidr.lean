import Kubenyx.Common.Cidr

/-!
# CIDR arithmetic

Model of the address functions of lib/default.nix. A value is `none` where the evaluation
aborts: `lib.toInt` and `hexToInt` on a text that is no number, `builtins.elemAt` past the
end, the assertion of `v6ToHextets`, and arithmetic that leaves the integers of Nix, which have
64 bits.

* `ipToInt_dottedQuad`: an IPv4 address in its notation is read as the number it denotes.
* `ipToInt_intToIp`, `dottedQuad_intToIp`: writing one.
-/

namespace Kubenyx.Net

open Kubenyx.Common

/-- `isV6` (lib/default.nix:9). -/
def isV6 (s : Text) : Bool := s.contains ':'

/-- `hostPort` (lib/default.nix:14-15). -/
def hostPort (host : Text) (port : ℕ) : Text :=
  if isV6 host then '[' :: host ++ "]:".toList ++ decimal port else host ++ ':' :: decimal port

/-! ## Integers -/

/-- The result of an operation on integers, which aborts where it overflows. -/
def int64 (n : ℤ) : Option ℤ := if -2 ^ 63 ≤ n ∧ n < 2 ^ 63 then some n else none

/-- The same where the operands are not negative. -/
def nat64 (n : ℕ) : Option ℕ := if n < 2 ^ 63 then some n else none

theorem int64_of_nonneg {n : ℤ} (hnonneg : 0 ≤ n) (h : n < 2 ^ 63) : int64 n = some n :=
  if_pos ⟨by omega, h⟩

theorem nat64_of_lt {n : ℕ} (h : n < 2 ^ 63) : nat64 n = some n := if_pos h

theorem nat64_eq_some {n m : ℕ} : nat64 n = some m ↔ n = m ∧ n < 2 ^ 63 := by
  unfold nat64
  split_ifs with h
  · rw [Option.some_inj, and_iff_left h]
  · exact iff_of_false (by simp) fun hn => h hn.2

/-! ## Functions of nixpkgs' `lib` -/

/-- `[[:space:]]`. -/
def isSpace (c : Char) : Bool := c = ' ' ∨ (9 ≤ c.toNat ∧ c.toNat ≤ 13)

/-- `lib.toInt`: white space around the number is dropped, a leading zero is refused. -/
def toInt (s : Text) : Option ℤ :=
  let stripped := (s.dropWhile isSpace).rdropWhile isSpace
  let negative := stripped.head? = some '-'
  let digits := if negative then stripped.tail else stripped
  if digits = [] ∨ digits.all Char.isDigit = false then none
  else if digits.head? = some '0' ∧ 1 < digits.length then none
  else
    let magnitude : ℤ := Nat.ofDigitChars 10 digits 0
    let n := if negative then -magnitude else magnitude
    if -2 ^ 63 ≤ n ∧ n < 2 ^ 63 then some n else none

/-- `lib.splitString` at a character twice. -/
def splitPair (c : Char) : Text → List Text
  | a :: b :: t =>
    if a = c ∧ b = c then [] :: splitPair c t
    else (splitPair c (b :: t)).modifyHead (a :: ·)
  | t => [t]

/-! ## IPv4 -/

/-- `ipToInt` (lib/default.nix:17-25). What follows the fourth part is never looked at. -/
def ipToInt (ip : Text) : Option ℤ := do
  let p := ip.splitOn '.'
  let a ← p[0]?.bind toInt
  let b ← p[1]?.bind toInt
  let c ← p[2]?.bind toInt
  let d ← p[3]?.bind toInt
  let a ← int64 (a * 16777216)
  let b ← int64 (b * 65536)
  let ab ← int64 (a + b)
  let c ← int64 (c * 256)
  let abc ← int64 (ab + c)
  int64 (abc + d)

/-- `intToIp` (lib/default.nix:27-34). -/
def intToIp (n : ℤ) : Text :=
  joined '.' ([n.tdiv 16777216, (n.tdiv 65536).tmod 256, (n.tdiv 256).tmod 256, n.tmod 256].map
    intText)

/-- `cidrBase` (lib/default.nix:36). -/
def cidrBase (cidr : Text) : Text := (cidr.splitOn '/').headD []

/-- `cidrPrefix` (lib/default.nix:37). -/
def cidrPrefix (cidr : Text) : Option ℤ := (cidr.splitOn '/')[1]?.bind toInt

/-- `pow2` (lib/default.nix:39) of a number that is not negative. -/
def pow2 : ℕ → ℕ
  | 0 => 1
  | n + 1 => 2 * pow2 n

/-- A call of `pow2`, which recurses for ever on a negative number. -/
def evalPow2 (n : ℤ) : Option ℕ := if n < 0 then none else nat64 (pow2 n.toNat)

/-! ## IPv6 -/

/-- The `digits` of `hexToInt` (lib/default.nix:46-69). -/
def digits : List (Char × ℕ) :=
  [('0', 0), ('1', 1), ('2', 2), ('3', 3), ('4', 4), ('5', 5), ('6', 6), ('7', 7), ('8', 8),
    ('9', 9), ('a', 10), ('b', 11), ('c', 12), ('d', 13), ('e', 14), ('f', 15), ('A', 10),
    ('B', 11), ('C', 12), ('D', 13), ('E', 14), ('F', 15)]

/-- `hexToInt` (lib/default.nix:43-71). -/
def hexToInt (s : Text) : Option ℕ :=
  s.foldlM (fun acc c => (digits.lookup c).bind fun d => nat64 (acc * 16 + d)) 0

/-- The `groups` of a half of an address (lib/default.nix:79). -/
def groups (half : Text) : List Text := (half.splitOn ':').filter (· ≠ [])

/-- `v6ToHextets` (lib/default.nix:74-87). -/
def v6ToHextets (addr : Text) : Option (List ℕ) :=
  let halves := splitPair ':' addr
  let compressed := halves.length = 2
  let left := groups (halves.headD [])
  let right := if compressed then groups (halves.getD 1 []) else []
  let fill : ℤ := 8 - left.length - right.length
  if halves.length ≤ 2 ∧ (if compressed then 1 ≤ fill else left.length = 8) then do
    let l ← left.mapM hexToInt
    let r ← right.mapM hexToInt
    return l ++ (if compressed then List.replicate fill.toNat 0 else []) ++ r
  else none

/-- The `hex` of `hextetsToV6` (lib/default.nix:94). -/
def hex (h : ℕ) : Text := Nat.toDigits 16 h

/-- The number of zeros at the front. -/
def zeroRun : List ℕ → ℕ
  | [] => 0
  | h :: hs => if h ≠ 0 then 0 else 1 + zeroRun hs

/-- The `zeroRunAt` of eight hextets (lib/default.nix:95). -/
def zeroRunAt (hextets : List ℕ) (i : ℕ) : ℕ := zeroRun (hextets.drop i)

/-- A run of zeros. -/
structure Run where
  start : ℤ
  len : ℕ
  deriving DecidableEq

/-- One round of the fold of `best` (lib/default.nix:98-110). -/
def better (hextets : List ℕ) (acc : Run) (i : ℕ) : Run :=
  let len := zeroRunAt hextets i
  if acc.len < len then ⟨i, len⟩ else acc

/-- The `best` run of zeros (lib/default.nix:96-115). -/
def best (hextets : List ℕ) : Run := (List.range 8).foldl (better hextets) ⟨-1, 1⟩

/-- `hextetsToV6` (lib/default.nix:91-122). -/
def hextetsToV6 (hextets : List ℕ) : Text :=
  let best := best hextets
  let before := hextets.take best.start.toNat
  let after := (hextets.drop (best.start + best.len).toNat).take (8 - best.start - best.len).toNat
  if best.len < 2 then joined ':' (hextets.map hex)
  else joined ':' (before.map hex) ++ "::".toList ++ joined ':' (after.map hex)

/-- The hextets of `v6Add` before carrying (lib/default.nix:143). The number to add is an
    expression, which is evaluated at its position and nowhere else. -/
def addends (hextets : List ℕ) (pos : ℤ) (n : Option ℕ) : List (Option ℕ) :=
  hextets.mapIdx fun i h => if (i : ℤ) = pos then n.bind fun n => nat64 (h + n) else some h

/-- One round of the fold of `v6Add` (lib/default.nix:129-138). -/
def carryStep (h : Option ℕ) (acc : Option (ℕ × List ℕ)) : Option (ℕ × List ℕ) := do
  let h ← h
  let acc ← acc
  let v ← nat64 (h + acc.1)
  return (v / 65536, v % 65536 :: acc.2)

/-- `v6Add` (lib/default.nix:126-144). -/
def v6Add (hextets : List ℕ) (pos : ℤ) (n : Option ℕ) : Option (List ℕ) :=
  ((addends hextets pos n).foldr carryStep (some (0, []))).map Prod.snd

/-- `cidrHost` (lib/default.nix:148-153). -/
def cidrHost (cidr : Text) (n : ℕ) : Option Text :=
  if isV6 cidr then do
    let hextets ← v6ToHextets (cidrBase cidr)
    let sum ← v6Add hextets 7 (some n)
    return hextetsToV6 sum
  else do
    let base ← ipToInt (cidrBase cidr)
    let sum ← int64 (base + n)
    return intToIp sum

/-- `nodePodCidr` (lib/default.nix:166-178). -/
def nodePodCidr (clusterCidr : Text) (nodeMask index : ℕ) : Option Text :=
  if isV6 clusterCidr then do
    let shift : ℤ := 128 - nodeMask
    let pos := 7 - shift.tdiv 16
    let scale := evalPow2 (shift.tmod 16)
    let hextets ← v6ToHextets (cidrBase clusterCidr)
    let sum ← v6Add hextets pos (scale.bind fun scale => nat64 (index * scale))
    return hextetsToV6 sum ++ '/' :: decimal nodeMask
  else do
    let base ← ipToInt (cidrBase clusterCidr)
    let scale ← evalPow2 (32 - nodeMask)
    let step ← nat64 (index * scale)
    let sum ← int64 (base + step)
    return intToIp sum ++ '/' :: decimal nodeMask

example : nodePodCidr "10.244.0.0/16".toList 24 255 = some "10.244.255.0/24".toList := by
  decide +kernel

example : nodePodCidr "fd42:dead:beef::/48".toList 64 255 =
    some "fd42:dead:beef:ff::/64".toList := by
  decide +kernel

example : cidrHost "fd00::ffff/112".toList 1 = some "fd00::1:0".toList := by decide +kernel

/-! ## Reading numerals -/

theorem isSpace_eq_false_of_isDigit {c : Char} (h : c.isDigit = true) : isSpace c = false := by
  have hrange : 48 ≤ c.toNat ∧ c.toNat ≤ 57 := Char.isDigit_iff_toNat.mp h
  unfold isSpace
  simp only [decide_eq_false_iff_not, not_or, not_and]
  refine ⟨fun hc => ?_, by omega⟩
  subst hc
  exact absurd h (by decide)

theorem toInt_decimal {n : ℕ} (h : n < 2 ^ 63) : toInt (decimal n) = some (n : ℤ) := by
  have hdigit : ∀ c ∈ decimal n, isSpace c = false := fun c hc =>
    isSpace_eq_false_of_isDigit (isDigit_of_mem_decimal hc)
  have hstrip : ((decimal n).dropWhile isSpace).rdropWhile isSpace = decimal n := by
    rw [List.dropWhile_eq_self_iff.mpr fun hlen => by simp [hdigit _ (List.getElem_mem hlen)],
      List.rdropWhile_eq_self_iff]
    intro hne
    simp [hdigit _ (List.getLast_mem hne)]
  have hsign : ¬ (decimal n).head? = some '-' := fun hhead =>
    absurd (isDigit_of_mem_decimal (List.mem_of_mem_head? hhead)) (by decide)
  have hzero : ¬ ((decimal n).head? = some '0' ∧ 1 < (decimal n).length) := by
    rintro ⟨hhead, hlen⟩
    rw [eq_zero_of_head?_toDigits (by decide) (by decide) hhead] at hlen
    exact absurd hlen (by decide)
  unfold toInt
  simp only [hstrip, hsign, decimal_ne_nil, all_isDigit_decimal, hzero, ofDigitChars_decimal, if_false,
    Bool.true_eq_false, or_self]
  rw [if_pos (by omega)]

/-! ## IPv4 in its notation -/

/-- Reading four parts whose sum does not overflow. -/
theorem ipToInt_of_parts {ip ta tb tc td : Text} {a b c d : ℤ}
    (hsplit : ip.splitOn '.' = [ta, tb, tc, td])
    (ha : toInt ta = some a) (hb : toInt tb = some b) (hc : toInt tc = some c)
    (hd : toInt td = some d) (hnonneg : 0 ≤ a ∧ 0 ≤ b ∧ 0 ≤ c ∧ 0 ≤ d)
    (h : a * 16777216 + b * 65536 + c * 256 + d < 2 ^ 63) :
    ipToInt ip = some (a * 16777216 + b * 65536 + c * 256 + d) := by
  have hint : ∀ n : ℤ, 0 ≤ n → n ≤ a * 16777216 + b * 65536 + c * 256 + d →
      int64 n = some n := fun n hn hle => int64_of_nonneg hn (hle.trans_lt h)
  unfold ipToInt
  rw [hsplit]
  simp only [List.getElem?_cons_zero, List.getElem?_cons_succ, Option.bind_eq_bind,
    Option.bind_some, ha, hb, hc, hd]
  rw [hint (a * 16777216) (by omega) (by omega), Option.bind_some,
    hint (b * 65536) (by omega) (by omega), Option.bind_some,
    hint (a * 16777216 + b * 65536) (by omega) (by omega), Option.bind_some,
    hint (c * 256) (by omega) (by omega), Option.bind_some,
    hint (a * 16777216 + b * 65536 + c * 256) (by omega) (by omega), Option.bind_some,
    hint _ (by omega) le_rfl]

theorem ipToInt_joined {a b c d : ℕ} (h : ofGroups 256 [a, b, c, d] < 2 ^ 63) :
    ipToInt (joined '.' ([a, b, c, d].map decimal)) = some (ofGroups 256 [a, b, c, d] : ℤ) := by
  have hsplit : (joined '.' ([a, b, c, d].map decimal)).splitOn '.' = [a, b, c, d].map decimal := by
    refine List.splitOn_intercalate '.' ?_ (by simp)
    intro t ht
    obtain ⟨o, -, rfl⟩ := List.mem_map.mp ht
    exact not_mem_decimal (by decide) o
  have hvalue : ofGroups 256 [a, b, c, d] = a * 16777216 + b * 65536 + c * 256 + d := by
    simp only [ofGroups_cons, ofGroups_nil, List.length_cons, List.length_nil]
    ring
  rw [hvalue] at h ⊢
  rw [ipToInt_of_parts hsplit (toInt_decimal (by omega)) (toInt_decimal (by omega))
    (toInt_decimal (by omega)) (toInt_decimal (by omega)) (by omega) (by omega)]
  simp only [Nat.cast_add, Nat.cast_mul, Nat.cast_ofNat]

theorem ipToInt_dottedQuad {t : Text} {os : List ℕ} (h : DottedQuad t os) :
    ipToInt t = some (ofGroups 256 os : ℤ) := by
  obtain ⟨hlen, hlt, rfl⟩ := h
  match os, hlen with
  | [a, b, c, d], hlen =>
    refine ipToInt_joined ((ofGroups_lt hlt).trans_le ?_)
    rw [hlen]
    decide

theorem intToIp_natCast (n : ℕ) :
    intToIp n =
      joined '.' ([n / 16777216, n / 65536 % 256, n / 256 % 256, n % 256].map decimal) := rfl

theorem mem_intToIp {n : ℕ} {c : Char} (h : c ∈ intToIp n) : c = '.' ∨ c.isDigit = true := by
  rw [intToIp_natCast] at h
  exact mem_joined_decimal h

theorem ofGroups_octets (n : ℕ) :
    ofGroups 256 [n / 16777216, n / 65536 % 256, n / 256 % 256, n % 256] = n := by
  simp only [ofGroups_cons, ofGroups_nil, List.length_cons, List.length_nil]
  omega

/-- Reading what `intToIp` writes, also where the first part is too large for an octet. -/
theorem ipToInt_intToIp {n : ℕ} (h : n < 2 ^ 63) : ipToInt (intToIp n) = some (n : ℤ) := by
  rw [intToIp_natCast, ipToInt_joined, ofGroups_octets]
  rwa [ofGroups_octets]

theorem dottedQuad_intToIp {n : ℕ} (h : n < 2 ^ 32) :
    DottedQuad (intToIp n) [n / 16777216, n / 65536 % 256, n / 256 % 256, n % 256] where
  length_eq := rfl
  octet_lt := by
    simp only [List.forall_mem_cons]
    refine ⟨by omega, by omega, by omega, by omega, by simp⟩
  text_eq := intToIp_natCast n

end Kubenyx.Net
