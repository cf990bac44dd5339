import Kubenyx.Common.Encoding

/-!
# Base64 within Base64

Base64 cuts the bits of its input, with zeros behind them, into groups of six. So one Base64
text is found in another where its bits are found in those of the other at a multiple of six,
and bytes are found at other places than where they stand.

* `base64_eq`: Base64 as bits.
* `base64_infix_iff`: when a Base64 text is part of another one.
* `within_iff_of_pem`: a PEM is found in a text of ASCII only as a part of it that begins at
  a multiple of three bytes, and ends at one or at the end of the text.
-/

namespace Kubenyx.Common

/-! ## Bits -/

/-- The bits of a byte, the most significant one first. -/
def byteBits (b : UInt8) : List Bool :=
  [b.toNat.testBit 7, b.toNat.testBit 6, b.toNat.testBit 5, b.toNat.testBit 4,
    b.toNat.testBit 3, b.toNat.testBit 2, b.toNat.testBit 1, b.toNat.testBit 0]

/-- The bits of bytes. -/
def bits (l : List UInt8) : List Bool := l.flatMap byteBits

/-- The number that bits write, the most significant one first. -/
def ofBits (l : List Bool) : ℕ := l.foldl (fun n b => 2 * n + b.toNat) 0

theorem ofBits_append (l r : List Bool) : ofBits (l ++ r) = ofBits l * 2 ^ r.length + ofBits r := by
  induction r using List.reverseRecOn with
  | nil => simp [ofBits]
  | append_singleton r b ih =>
    unfold ofBits at ih ⊢
    rw [← List.append_assoc, List.foldl_append, ih, List.foldl_append, List.length_append]
    simp only [List.foldl_cons, List.foldl_nil, List.length_singleton, pow_succ]
    ring

theorem length_bits (l : List UInt8) : (bits l).length = 8 * l.length := by
  induction l with
  | nil => rfl
  | cons b l ih =>
    rw [bits, List.flatMap_cons, List.length_append, ← bits, ih, List.length_cons]
    show 8 + 8 * l.length = 8 * (l.length + 1)
    omega

theorem bits_append (l r : List UInt8) : bits (l ++ r) = bits l ++ bits r := List.flatMap_append

/-! ## Digits of six bits -/

/-- The Base64 characters of bits. -/
def base64Digits : List Bool → Text
  | a :: b :: c :: d :: e :: f :: rest => base64Char (ofBits [a, b, c, d, e, f]) :: base64Digits rest
  | _ => []

/-- The bits of a Base64 character. -/
def charBits (c : Char) : List Bool :=
  [(base64Value c).testBit 5, (base64Value c).testBit 4, (base64Value c).testBit 3,
    (base64Value c).testBit 2, (base64Value c).testBit 1, (base64Value c).testBit 0]

theorem charBits_base64Char : ∀ a b c d e f : Bool,
    charBits (base64Char (ofBits [a, b, c, d, e, f])) = [a, b, c, d, e, f] := by
  decide

theorem base64Char_ofBits_ne : ∀ a b c d e f : Bool,
    base64Char (ofBits [a, b, c, d, e, f]) ≠ '=' := by
  decide

section digits

variable {l r : List Bool}

/-- Bits in groups of six. -/
@[elab_as_elim]
theorem sextets_induction {motive : List Bool → Prop} (nil : motive [])
    (sextet : ∀ a b c d e f rest, motive rest → motive (a :: b :: c :: d :: e :: f :: rest))
    {l : List Bool} (h : 6 ∣ l.length) : motive l := by
  induction l using base64Digits.induct with
  | case1 a b c d e f rest ih =>
    simp only [List.length_cons] at h
    exact sextet a b c d e f rest (ih (by omega))
  | case2 l hl =>
    match l, hl with
    | [], _ => exact nil
    | [_], _ | [_, _], _ | [_, _, _], _ | [_, _, _, _], _ | [_, _, _, _, _], _ =>
      simp only [List.length_cons, List.length_nil] at h
      omega
    | a :: b :: c :: d :: e :: f :: rest, hl => exact absurd rfl (hl a b c d e f rest)

theorem base64Digits_append (h : 6 ∣ l.length) (r : List Bool) :
    base64Digits (l ++ r) = base64Digits l ++ base64Digits r := by
  refine sextets_induction rfl (fun a b c d e f rest ih => ?_) h
  simp only [List.cons_append, base64Digits, ih]

/-- The bits can be read back. -/
theorem flatMap_base64Digits (h : 6 ∣ l.length) : (base64Digits l).flatMap charBits = l := by
  refine sextets_induction rfl (fun a b c d e f rest ih => ?_) h
  rw [base64Digits, List.flatMap_cons, ih, charBits_base64Char]
  rfl

theorem pad_notMem_base64Digits (h : 6 ∣ l.length) : '=' ∉ base64Digits l := by
  refine sextets_induction List.not_mem_nil (fun a b c d e f rest ih => ?_) h
  rw [base64Digits, List.mem_cons, not_or]
  exact ⟨(base64Char_ofBits_ne a b c d e f).symm, ih⟩

theorem length_flatMap_charBits (t : Text) : (t.flatMap charBits).length = 6 * t.length := by
  induction t with
  | nil => rfl
  | cons c t ih =>
    rw [List.flatMap_cons, List.length_append, ih, List.length_cons]
    show 6 + 6 * t.length = 6 * (t.length + 1)
    omega

/-- Digits are found among digits where their bits are found at a multiple of six. -/
theorem base64Digits_infix_iff (hl : 6 ∣ l.length) (hr : 6 ∣ r.length) :
    base64Digits l <:+: base64Digits r ↔ ∃ a b, r = a ++ l ++ b ∧ 6 ∣ a.length := by
  constructor
  · rintro ⟨p, q, h⟩
    have hbits := congrArg (List.flatMap charBits) h
    rw [List.flatMap_append, List.flatMap_append, flatMap_base64Digits hl,
      flatMap_base64Digits hr] at hbits
    exact ⟨_, _, hbits.symm, length_flatMap_charBits p ▸ ⟨p.length, rfl⟩⟩
  · rintro ⟨a, b, rfl, ha⟩
    rw [List.append_assoc, base64Digits_append ha, base64Digits_append hl]
    exact ⟨_, _, List.append_assoc ..⟩

theorem base64Digits_suffix_iff (hl : 6 ∣ l.length) (hr : 6 ∣ r.length) :
    base64Digits l <:+ base64Digits r ↔ ∃ a, r = a ++ l := by
  constructor
  · rintro ⟨p, h⟩
    have hbits := congrArg (List.flatMap charBits) h
    rw [List.flatMap_append, flatMap_base64Digits hl, flatMap_base64Digits hr] at hbits
    exact ⟨_, hbits.symm⟩
  · rintro ⟨a, rfl⟩
    rw [List.length_append] at hr
    rw [base64Digits_append ((Nat.dvd_add_left hl).mp hr)]
    exact List.suffix_append _ _

end digits

/-! ## Base64 as bits -/

/-- The number of padding characters behind the digits. -/
def padding (l : List UInt8) : ℕ := (3 - l.length % 3) % 3

/-- The bits of bytes, with zeros up to a multiple of six. -/
def sextetBits (l : List UInt8) : List Bool := bits l ++ List.replicate (2 * padding l) false

theorem length_sextetBits (l : List UInt8) :
    (sextetBits l).length = 8 * l.length + 2 * padding l := by
  rw [sextetBits, List.length_append, length_bits, List.length_replicate]

theorem six_dvd_sextetBits (l : List UInt8) : 6 ∣ (sextetBits l).length := by
  rw [length_sextetBits, padding]
  omega

theorem ofBits_byteBits (b : UInt8) :
    ofBits ((byteBits b).take 6) = b.toNat / 4 ∧ ofBits ((byteBits b).drop 6) = b.toNat % 4 ∧
      ofBits ((byteBits b).take 4) = b.toNat / 16 ∧ ofBits ((byteBits b).drop 4) = b.toNat % 16 ∧
      ofBits ((byteBits b).take 2) = b.toNat / 64 ∧ ofBits ((byteBits b).drop 2) = b.toNat % 64 := by
  have hall : ∀ n : Fin 256, let b := UInt8.ofNat n
      ofBits ((byteBits b).take 6) = b.toNat / 4 ∧ ofBits ((byteBits b).drop 6) = b.toNat % 4 ∧
      ofBits ((byteBits b).take 4) = b.toNat / 16 ∧ ofBits ((byteBits b).drop 4) = b.toNat % 16 ∧
      ofBits ((byteBits b).take 2) = b.toNat / 64 ∧
        ofBits ((byteBits b).drop 2) = b.toNat % 64 := by
    decide +kernel
  have hb := hall ⟨b.toNat, b.toNat_lt⟩
  simpa only [UInt8.ofNat_toNat] using hb

/-- Base64 is the digits of the bits, and padding. -/
theorem base64_eq (l : List UInt8) :
    base64 l = base64Digits (sextetBits l) ++ List.replicate (padding l) '=' := by
  have hsplit : ∀ x y : List Bool, ofBits (x ++ y) = ofBits x * 2 ^ y.length + ofBits y :=
    ofBits_append
  induction l using base64.induct with
  | case1 => rfl
  | case2 a =>
    obtain ⟨h1, h2, -⟩ := ofBits_byteBits a
    have hlow := hsplit ((byteBits a).drop 6) [false, false, false, false]
    rw [h2] at hlow
    rw [base64, ← h1]
    have : a.toNat % 4 * 16 = ofBits ((byteBits a).drop 6 ++ [false, false, false, false]) := by
      rw [hlow]
      rfl
    rw [this]
    rfl
  | case3 a b =>
    obtain ⟨h1, h2, -⟩ := ofBits_byteBits a
    obtain ⟨-, -, h3, h4, -⟩ := ofBits_byteBits b
    have hmid := hsplit ((byteBits a).drop 6) ((byteBits b).take 4)
    have hlow := hsplit ((byteBits b).drop 4) [false, false]
    rw [h2, h3] at hmid
    rw [h4] at hlow
    have hmid' : a.toNat % 4 * 16 + b.toNat / 16 =
        ofBits ((byteBits a).drop 6 ++ (byteBits b).take 4) := hmid.symm
    have hlow' : b.toNat % 16 * 4 = ofBits ((byteBits b).drop 4 ++ [false, false]) := hlow.symm
    rw [base64, ← h1, hmid', hlow']
    rfl
  | case4 a b c rest ih =>
    obtain ⟨h1, h2, -⟩ := ofBits_byteBits a
    obtain ⟨-, -, h3, h4, -⟩ := ofBits_byteBits b
    obtain ⟨-, -, -, -, h5, h6⟩ := ofBits_byteBits c
    have hmid := hsplit ((byteBits a).drop 6) ((byteBits b).take 4)
    have hlow := hsplit ((byteBits b).drop 4) ((byteBits c).take 2)
    rw [h2, h3] at hmid
    rw [h4, h5] at hlow
    have hmid' : a.toNat % 4 * 16 + b.toNat / 16 =
        ofBits ((byteBits a).drop 6 ++ (byteBits b).take 4) := hmid.symm
    have hlow' : b.toNat % 16 * 4 + c.toNat / 64 =
        ofBits ((byteBits b).drop 4 ++ (byteBits c).take 2) := hlow.symm
    have hpad : padding (a :: b :: c :: rest) = padding rest := by
      unfold padding
      rw [show (a :: b :: c :: rest).length = rest.length + 3 from rfl, Nat.add_mod_right]
    rw [base64, ih, ← h1, hmid', hlow', ← h6, hpad]
    unfold sextetBits
    rw [hpad]
    rfl

/-! ## One Base64 text within another -/

section padded

variable {α : Type} {c : α} {u v : List α} {j k : ℕ}

/-- What stands before a part that has no delimiter ends before the delimiters. -/
theorem notMem_of_append_eq {p q : List α} (hu : c ∉ u) (hv : c ∉ v) (hne : u ≠ [])
    (h : p ++ u ++ q = v ++ List.replicate k c) : c ∉ p := by
  classical
  intro hp
  obtain ⟨p₁, p₂, rfl, hp₁⟩ := List.eq_append_cons_of_mem hp
  cases k with
  | zero =>
    rw [List.replicate_zero, List.append_nil] at h
    exact hv (h ▸ by simp)
  | succ k =>
    have hsplit : p₁ ++ c :: (p₂ ++ u ++ q) = v ++ c :: List.replicate k c := by
      simpa [List.replicate_succ] using h
    obtain ⟨-, hrest⟩ := append_cons_inj hp₁ hv hsplit
    obtain ⟨x, hx⟩ := List.exists_mem_of_ne_nil u hne
    have hc : x ∈ List.replicate k c := hrest ▸ by simp [hx]
    exact hu (List.eq_of_mem_replicate hc ▸ hx)

/-- Padding holds no part without padding. -/
theorem infix_append_replicate_iff (hu : c ∉ u) (hv : c ∉ v) (hne : u ≠ []) :
    u <:+: v ++ List.replicate k c ↔ u <:+: v := by
  refine ⟨fun ⟨p, q, h⟩ => ?_, fun h => List.infix_append_of_infix_left h⟩
  have hp := notMem_of_append_eq hu hv hne h
  have hpre : p ++ u <+: v ++ List.replicate k c := ⟨q, h⟩
  rcases List.prefix_or_prefix_of_prefix hpre (List.prefix_append v _) with hle | ⟨w, hw⟩
  · exact (List.suffix_append p u).isInfix.trans hle.isInfix
  · have hw' : w = [] := by
      rw [← hw, List.prefix_append_right_inj] at hpre
      refine List.eq_nil_iff_forall_not_mem.mpr fun x hx => ?_
      have hc := List.eq_of_mem_replicate (hpre.subset hx)
      have hmem : c ∈ p ++ u := hw ▸ List.mem_append_right v (hc ▸ hx)
      exact (List.mem_append.mp hmem).elim hp hu
    rw [hw', List.append_nil] at hw
    exact hw ▸ (List.suffix_append p u).isInfix

/-- Padded text stands only at the end of padded text. -/
theorem append_replicate_infix_iff (hu : c ∉ u) (hv : c ∉ v) (hne : u ≠ []) (hj : 0 < j) :
    u ++ List.replicate j c <:+: v ++ List.replicate k c ↔ u <:+ v ∧ j ≤ k := by
  constructor
  · rintro ⟨p, q, h⟩
    rw [← List.append_assoc, List.append_assoc _ _ q] at h
    have hp := notMem_of_append_eq hu hv hne h
    obtain ⟨j, rfl⟩ := Nat.exists_eq_succ_of_ne_zero hj.ne'
    cases k with
    | zero =>
      rw [List.replicate_zero, List.append_nil] at h
      exact absurd (h ▸ by simp [List.replicate_succ]) hv
    | succ k =>
      have hpu : c ∉ p ++ u := fun hmem => (List.mem_append.mp hmem).elim hp hu
      obtain ⟨hv', hrest⟩ := append_cons_inj (r := List.replicate j c ++ q) hpu hv h
      have hlen := congrArg List.length hrest
      rw [List.length_append, List.length_replicate, List.length_replicate] at hlen
      exact ⟨⟨p, hv'⟩, by omega⟩
  · rintro ⟨⟨p, rfl⟩, hjk⟩
    refine ⟨p, List.replicate (k - j) c, ?_⟩
    rw [List.append_assoc, List.append_assoc, List.append_assoc, ← List.replicate_add,
      Nat.add_sub_cancel' hjk]

end padded

/-- The bits of `x`, with the zeros behind them, are those of `y` from a multiple of six on; to
    the end, if `x` needs padding. -/
def Within (x y : List UInt8) : Prop :=
  ∃ a b, sextetBits y = a ++ sextetBits x ++ b ∧ 6 ∣ a.length ∧
    (padding x = 0 ∨ b = [] ∧ padding x ≤ padding y)

/-- When a Base64 text is part of another one. -/
theorem base64_infix_iff {x y : List UInt8} : base64 x <:+: base64 y ↔ Within x y := by
  have hx := six_dvd_sextetBits x
  have hy := six_dvd_sextetBits y
  rw [base64_eq x, base64_eq y]
  rcases Nat.eq_zero_or_pos (padding x) with hpad | hpad
  · rw [hpad, List.replicate_zero, List.append_nil]
    unfold Within
    simp only [hpad, true_or, and_true]
    rw [← base64Digits_infix_iff hx hy]
    rcases eq_or_ne (base64Digits (sextetBits x)) [] with hnil | hne
    · rw [hnil]
      exact iff_of_true List.nil_infix List.nil_infix
    · exact infix_append_replicate_iff (pad_notMem_base64Digits hx) (pad_notMem_base64Digits hy) hne
  · have hne : base64Digits (sextetBits x) ≠ [] := by
      intro hnil
      have hbits := flatMap_base64Digits hx
      have hlen := length_sextetBits x
      rw [hnil, List.flatMap_nil] at hbits
      rw [← hbits, List.length_nil] at hlen
      omega
    rw [append_replicate_infix_iff (pad_notMem_base64Digits hx) (pad_notMem_base64Digits hy) hne hpad,
      base64Digits_suffix_iff hx hy]
    constructor
    · rintro ⟨⟨a, ha⟩, hle⟩
      have hdvd : 6 ∣ a.length := by
        rw [ha, List.length_append] at hy
        exact (Nat.dvd_add_left hx).mp hy
      exact ⟨a, [], by rw [ha, List.append_nil], hdvd, Or.inr ⟨rfl, hle⟩⟩
    · rintro ⟨a, b, hbits, -, hend⟩
      obtain ⟨rfl, hle⟩ := hend.resolve_left hpad.ne'
      exact ⟨⟨a, by rw [hbits, List.append_nil]⟩, hle⟩

/-! ## Whole groups of three bytes -/

/-- A part that begins at a multiple of three bytes, and ends at one or at the end. -/
theorem within_append {a x b : List UInt8} (ha : 3 ∣ a.length) (hb : 3 ∣ x.length ∨ b = []) :
    Within x (a ++ x ++ b) := by
  have hdvd : 6 ∣ (bits a).length := by
    rw [length_bits]
    omega
  unfold Within sextetBits
  rw [bits_append, bits_append]
  rcases hb with hx | rfl
  · have hpad : padding x = 0 := by
      unfold padding
      omega
    refine ⟨bits a, bits b ++ List.replicate (2 * padding (a ++ x ++ b)) false, ?_, hdvd,
      Or.inl hpad⟩
    rw [hpad]
    simp only [List.append_assoc, mul_zero, List.replicate_zero, List.append_nil]
  · have hpad : padding (a ++ x ++ []) = padding x := by
      unfold padding
      rw [List.append_nil, List.length_append]
      omega
    refine ⟨bits a, [], ?_, hdvd, Or.inr ⟨rfl, hpad.ge⟩⟩
    rw [hpad]
    simp only [List.append_assoc, List.append_nil, bits, List.flatMap_nil]

theorem bits_prefix {x y : List UInt8} (h : bits x <+: bits y) : x <+: y := by
  have hbyte : ∀ b c : UInt8, byteBits b = byteBits c → b = c := by
    intro b c hbc
    obtain ⟨h1, h2, -⟩ := ofBits_byteBits b
    obtain ⟨h3, h4, -⟩ := ofBits_byteBits c
    rw [hbc, h3] at h1
    rw [hbc, h4] at h2
    exact UInt8.toNat_inj.mp (by omega)
  induction x generalizing y with
  | nil => exact List.nil_prefix
  | cons b x ih =>
    cases y with
    | nil => exact absurd (List.prefix_nil.mp h) (List.cons_ne_nil _ _)
    | cons c y =>
      have hlen : (byteBits b).length = (byteBits c).length := rfl
      obtain ⟨t, ht⟩ := h
      have hsplit : byteBits b ++ (bits x ++ t) = byteBits c ++ bits y := by
        rw [← List.append_assoc]
        exact ht
      obtain ⟨hbc, hxy⟩ := List.append_inj hsplit hlen
      rw [hbyte b c hbc]
      exact (List.prefix_cons_inj c).mpr (ih ⟨t, hxy⟩)

/-- A bit of a byte. -/
theorem getElem?_bits (l : List UInt8) (j : ℕ) {r : ℕ} (hr : r < 8) :
    (bits l)[8 * j + r]? = l[j]?.bind fun b => (byteBits b)[r]? := by
  induction l generalizing j with
  | nil => rfl
  | cons b l ih =>
    have hbits : bits (b :: l) = byteBits b ++ bits l := rfl
    have hlen : (byteBits b).length = 8 := rfl
    rw [hbits]
    cases j with
    | zero =>
      rw [List.getElem?_append_left (by omega), mul_zero, zero_add]
      rfl
    | succ j =>
      rw [List.getElem?_append_right (by omega), hlen, List.getElem?_cons_succ, ← ih]
      congr 1
      omega

/-- Where the bits are found at a whole byte, the bytes are found. -/
theorem append_of_sextetBits {x y : List UInt8} {a b : List Bool}
    (h : sextetBits y = a ++ sextetBits x ++ b) (h6 : 6 ∣ a.length) (h8 : 8 ∣ a.length)
    (hend : padding x = 0 ∨ b = [] ∧ padding x ≤ padding y) :
    ∃ a' b', y = a' ++ x ++ b' ∧ 3 ∣ a'.length ∧ (3 ∣ x.length ∨ b' = []) := by
  obtain ⟨i, hi⟩ := h8
  have hlen := congrArg List.length h
  rw [List.length_append, List.length_append, length_sextetBits, length_sextetBits, hi] at hlen
  have hpx : padding x = (3 - x.length % 3) % 3 := rfl
  have hpy : padding y = (3 - y.length % 3) % 3 := rfl
  have hfit : i + x.length ≤ y.length := by omega
  have htake : (y.take i).length = i := List.length_take_of_le (by omega)
  have hsplit : bits (y.take i) ++ bits (y.drop i) = bits y := by
    rw [← bits_append, List.take_append_drop]
  have hdrop : bits (y.drop i) ++ List.replicate (2 * padding y) false =
      sextetBits x ++ b := by
    unfold sextetBits at h
    rw [← hsplit, List.append_assoc, List.append_assoc] at h
    exact (List.append_inj h (by rw [length_bits, htake, hi])).2
  have hprefix : bits x <+: bits (y.drop i) := by
    have hwhole : bits x <+: sextetBits x ++ b := by
      rw [sextetBits, List.append_assoc]
      exact List.prefix_append _ _
    refine List.prefix_of_prefix_length_le hwhole ⟨_, hdrop⟩ ?_
    rw [length_bits, length_bits, List.length_drop]
    omega
  obtain ⟨b', hb'⟩ := bits_prefix hprefix
  refine ⟨y.take i, b', ?_, by omega, ?_⟩
  · rw [List.append_assoc, hb', List.take_append_drop]
  · rcases hend with hpad | ⟨rfl, hpad⟩
    · exact Or.inl (by omega)
    · have hrest := congrArg List.length hb'
      rw [List.length_append, List.length_drop] at hrest
      rw [List.length_nil] at hlen
      exact Or.inr (List.length_eq_zero_iff.mp (by omega))

/-- What a PEM begins with. -/
def pemStart : List UInt8 := utf8 "-----BEGIN ".toList

/-- A PEM is found in ASCII only as a part of it. At another place than a whole byte one of
    its bits would be the highest bit of a byte. -/
theorem within_iff_of_pem {x y : List UInt8} (hx : pemStart <+: x) (hy : ∀ b ∈ y, b.toNat < 128) :
    Within x y ↔ ∃ a b, y = a ++ x ++ b ∧ 3 ∣ a.length ∧ (3 ∣ x.length ∨ b = []) := by
  constructor
  · rintro ⟨a, b, h, h6, hend⟩
    refine append_of_sextetBits h h6 ?_ hend
    have hhigh : ∀ j, (sextetBits y)[8 * j]? ≠ some true := by
      intro j htrue
      rcases Nat.lt_or_ge (8 * j) (bits y).length with hlt | hge
      · rw [sextetBits, List.getElem?_append_left hlt] at htrue
        have hbit := getElem?_bits y j (show 0 < 8 by decide)
        rw [add_zero, htrue] at hbit
        obtain ⟨c, hc, hbit⟩ := Option.bind_eq_some_iff.mp hbit.symm
        have hlow : c.toNat.testBit 7 = false :=
          Nat.testBit_lt_two_pow (hy c (List.mem_of_getElem? hc))
        have hset : c.toNat.testBit 7 = true := Option.some.inj hbit
        rw [hlow] at hset
        cases hset
      · rw [sextetBits, List.getElem?_append_right hge] at htrue
        exact Bool.false_ne_true (List.eq_of_mem_replicate (List.mem_of_getElem? htrue)).symm
    have hpem : ∀ p, (bits pemStart)[p]? = some true → (sextetBits y)[a.length + p]? = some true := by
      intro p hp
      obtain ⟨t, rfl⟩ := hx
      have hlt : p < (bits pemStart).length := (List.getElem?_eq_some_iff.mp hp).1
      have hs : sextetBits (pemStart ++ t) = bits pemStart ++
          (bits t ++ List.replicate (2 * padding (pemStart ++ t)) false) := by
        rw [sextetBits, bits_append, List.append_assoc]
      rw [h, List.append_assoc, List.getElem?_append_right (Nat.le_add_right _ _),
        Nat.add_sub_cancel_left, hs, List.append_assoc, List.getElem?_append_left hlt, hp]
    by_contra hodd
    have hplace : a.length % 8 = 2 ∨ a.length % 8 = 4 ∨ a.length % 8 = 6 := by omega
    rcases hplace with h2 | h4 | h6
    · refine hhigh ((a.length + 46) / 8) ?_
      rw [show 8 * ((a.length + 46) / 8) = a.length + 46 by omega]
      exact hpem 46 (by decide +kernel)
    · refine hhigh ((a.length + 4) / 8) ?_
      rw [show 8 * ((a.length + 4) / 8) = a.length + 4 by omega]
      exact hpem 4 (by decide +kernel)
    · refine hhigh ((a.length + 2) / 8) ?_
      rw [show 8 * ((a.length + 2) / 8) = a.length + 2 by omega]
      exact hpem 2 (by decide +kernel)
  · rintro ⟨a, b, rfl, ha, hb⟩
    exact within_append ha hb

end Kubenyx.Common
