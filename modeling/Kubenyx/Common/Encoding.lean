import Mathlib

/-!
# Text, UTF-8 and Base64

A text is a list of Unicode scalar values. This has what is needed to read embedded
values back out of a text: both encodings are injective, a Base64 text has none of
the characters that delimit it, and a delimited part of a text is unique.
-/

namespace Kubenyx.Common

/-- A text, as its Unicode scalar values. -/
abbrev Text := List Char

instance : LawfulBEq Text := inferInstance

/-- The UTF-8 encoding of a text. -/
def utf8 (t : Text) : List UInt8 := t.flatMap String.utf8EncodeChar

theorem utf8_injective : Function.Injective utf8 := by
  intro s t h
  apply String.ofList_injective
  rw [← String.toByteArray_inj]
  exact congrArg List.toByteArray h

theorem utf8_append (s t : Text) : utf8 (s ++ t) = utf8 s ++ utf8 t := List.flatMap_append

/-- ASCII characters are encoded as themselves. -/
theorem utf8_of_ascii {t : Text} (h : ∀ c ∈ t, c.toNat < 128) :
    utf8 t = t.map fun c => UInt8.ofNat c.toNat := by
  unfold utf8
  rw [List.map_eq_flatMap]
  refine List.flatMap_congr fun c hc => ?_
  have hle : c.val ≤ 127 := UInt32.le_iff_toNat_le.mpr (Nat.le_of_lt_succ (h c hc))
  rw [String.utf8EncodeChar_eq_singleton (Char.utf8Size_eq_one_iff.mpr hle)]
  rfl

/-- Letters and digits of ASCII. -/
theorem toNat_of_isAlphanum {c : Char} (h : c.isAlphanum = true) :
    48 ≤ c.toNat ∧ c.toNat ≤ 122 := by
  unfold Char.isAlphanum Char.isAlpha Char.isUpper Char.isLower Char.isDigit at h
  simp only [Bool.or_eq_true, Bool.and_eq_true, decide_eq_true_eq, UInt32.le_iff_toNat_le,
    ge_iff_le] at h
  rcases h with (⟨hlo, hhi⟩ | ⟨hlo, hhi⟩) | ⟨hlo, hhi⟩
  · exact ⟨le_trans (by decide) hlo, le_trans hhi (by decide)⟩
  · exact ⟨le_trans (by decide) hlo, le_trans hhi (by decide)⟩
  · exact ⟨le_trans (by decide) hlo, le_trans hhi (by decide)⟩

/-! ## Joined texts -/

/-- Texts with a separator between them. -/
def joined (sep : Char) (l : List Text) : Text := [sep].intercalate l

theorem joined_cons_cons (sep : Char) (t t' : Text) (l : List Text) :
    joined sep (t :: t' :: l) = t ++ sep :: joined sep (t' :: l) := by
  simp [joined]

theorem joined_append {sep : Char} {l l' : List Text} (hl : l ≠ []) (hl' : l' ≠ []) :
    joined sep (l ++ l') = joined sep l ++ sep :: joined sep l' := by
  induction l with
  | nil => exact absurd rfl hl
  | cons t l ih =>
    cases l with
    | nil =>
      obtain ⟨u, us, rfl⟩ := List.exists_cons_of_ne_nil hl'
      simp [joined]
    | cons t' l =>
      show joined sep (t :: t' :: (l ++ l')) = _
      rw [joined_cons_cons, joined_cons_cons, ← List.cons_append, ih (List.cons_ne_nil _ _),
        List.append_assoc, List.cons_append]

theorem mem_joined {sep c : Char} {l : List Text} (h : c ∈ joined sep l) :
    c = sep ∨ ∃ t ∈ l, c ∈ t := by
  induction l with
  | nil => simp [joined] at h
  | cons t l ih =>
    cases l with
    | nil => exact Or.inr ⟨t, List.mem_singleton_self t, by simpa [joined] using h⟩
    | cons t' l =>
      rw [joined_cons_cons, List.mem_append, List.mem_cons] at h
      rcases h with h | h | h
      · exact Or.inr ⟨t, List.mem_cons_self, h⟩
      · exact Or.inl h
      · exact (ih h).imp_right fun ⟨u, hu, hc⟩ => ⟨u, List.mem_cons_of_mem _ hu, hc⟩

theorem mem_joined_of_mem {sep c : Char} {t : Text} {l : List Text} (ht : t ∈ l) (hc : c ∈ t) :
    c ∈ joined sep l := by
  induction l with
  | nil => simp at ht
  | cons u l ih =>
    cases l with
    | nil =>
      obtain rfl := List.mem_singleton.mp ht
      simpa [joined] using hc
    | cons u' l =>
      rw [joined_cons_cons, List.mem_append, List.mem_cons]
      rcases List.mem_cons.mp ht with rfl | ht
      · exact Or.inl hc
      · exact Or.inr (Or.inr (ih ht))

/-! ## Base64 -/

/-- The character of a value below 64 in the standard alphabet. -/
def base64Char (n : ℕ) : Char :=
  if n < 26 then Char.ofNat (65 + n)
  else if n < 52 then Char.ofNat (97 + (n - 26))
  else if n < 62 then Char.ofNat (48 + (n - 52))
  else if n = 62 then '+'
  else '/'

/-- The value of a character of the alphabet. -/
def base64Value (c : Char) : ℕ :=
  if c.isUpper then c.toNat - 65
  else if c.isLower then c.toNat - 97 + 26
  else if c.isDigit then c.toNat - 48 + 52
  else if c = '+' then 62
  else 63

/-- Base64 with the standard alphabet and padding: four characters for three
    bytes. -/
def base64 : List UInt8 → Text
  | [] => []
  | [a] => [base64Char (a.toNat / 4), base64Char (a.toNat % 4 * 16), '=', '=']
  | [a, b] =>
    [base64Char (a.toNat / 4), base64Char (a.toNat % 4 * 16 + b.toNat / 16),
      base64Char (b.toNat % 16 * 4), '=']
  | a :: b :: c :: rest =>
    base64Char (a.toNat / 4) :: base64Char (a.toNat % 4 * 16 + b.toNat / 16) ::
      base64Char (b.toNat % 16 * 4 + c.toNat / 64) :: base64Char (c.toNat % 64) :: base64 rest

theorem base64Value_base64Char {n : ℕ} (h : n < 64) : base64Value (base64Char n) = n := by
  have hall : ∀ n : Fin 64, base64Value (base64Char n) = n := by decide
  exact hall ⟨n, h⟩

/-- The characters of the alphabet are neither padding nor white space. -/
theorem base64Char_ne {n : ℕ} (h : n < 64) :
    base64Char n ≠ '=' ∧ base64Char n ≠ ' ' ∧ base64Char n ≠ '\n' := by
  have hall : ∀ n : Fin 64, base64Char n ≠ '=' ∧ base64Char n ≠ ' ' ∧ base64Char n ≠ '\n' := by
    decide
  exact hall ⟨n, h⟩

/-- The bytes of a Base64 text. -/
def unbase64 : Text → List UInt8
  | c :: d :: e :: f :: rest =>
    let a := UInt8.ofNat (base64Value c * 4 + base64Value d / 16)
    let b := UInt8.ofNat (base64Value d % 16 * 16 + base64Value e / 4)
    if e = '=' then [a]
    else if f = '=' then [a, b]
    else a :: b :: UInt8.ofNat (base64Value e % 4 * 64 + base64Value f) :: unbase64 rest
  | _ => []

theorem ofNat_eq_of_toNat {n : ℕ} {a : UInt8} (h : n = a.toNat) : UInt8.ofNat n = a := by
  rw [h, UInt8.ofNat_toNat]

/-- Every text is read back, so different bytes have different texts. -/
theorem unbase64_base64 : Function.LeftInverse unbase64 base64 := by
  intro l
  induction l using base64.induct with
  | case1 => rfl
  | case2 a =>
    have ha := a.toNat_lt
    unfold base64 unbase64
    rw [base64Value_base64Char (by omega), base64Value_base64Char (by omega)]
    simp only [if_true]
    rw [ofNat_eq_of_toNat (show _ = a.toNat by omega)]
  | case3 a b =>
    have ha := a.toNat_lt
    have hb := b.toNat_lt
    unfold base64 unbase64
    rw [base64Value_base64Char (by omega), base64Value_base64Char (by omega),
      base64Value_base64Char (by omega)]
    simp only [(base64Char_ne (show b.toNat % 16 * 4 < 64 by omega)).1, if_true, if_false]
    rw [ofNat_eq_of_toNat (show _ = a.toNat by omega), ofNat_eq_of_toNat (show _ = b.toNat by omega)]
  | case4 a b c rest ih =>
    have ha := a.toNat_lt
    have hb := b.toNat_lt
    have hc := c.toNat_lt
    unfold base64 unbase64
    rw [base64Value_base64Char (by omega), base64Value_base64Char (by omega),
      base64Value_base64Char (by omega), base64Value_base64Char (by omega), ih]
    simp only [(base64Char_ne (show b.toNat % 16 * 4 + c.toNat / 64 < 64 by omega)).1,
      (base64Char_ne (show c.toNat % 64 < 64 by omega)).1, if_false]
    rw [ofNat_eq_of_toNat (show _ = a.toNat by omega), ofNat_eq_of_toNat (show _ = b.toNat by omega),
      ofNat_eq_of_toNat (show _ = c.toNat by omega)]

theorem base64_injective : Function.Injective base64 := unbase64_base64.injective

/-- What is read of a text that goes on after its padding. -/
theorem unbase64_append (l : List UInt8) (t : Text) : l <+: unbase64 (base64 l ++ t) := by
  induction l using base64.induct with
  | case1 => exact List.nil_prefix
  | case2 a =>
    have ha := a.toNat_lt
    rw [base64]
    simp only [List.cons_append, unbase64]
    rw [base64Value_base64Char (by omega), base64Value_base64Char (by omega),
      ofNat_eq_of_toNat (show _ = a.toNat by omega)]
    exact List.prefix_rfl
  | case3 a b =>
    have ha := a.toNat_lt
    have hb := b.toNat_lt
    rw [base64]
    simp only [List.cons_append, unbase64]
    rw [base64Value_base64Char (by omega), base64Value_base64Char (by omega),
      base64Value_base64Char (by omega), ofNat_eq_of_toNat (show _ = a.toNat by omega),
      ofNat_eq_of_toNat (show _ = b.toNat by omega),
      if_neg (base64Char_ne (show b.toNat % 16 * 4 < 64 by omega)).1]
    exact List.prefix_rfl
  | case4 a b c rest ih =>
    have ha := a.toNat_lt
    have hb := b.toNat_lt
    have hc := c.toNat_lt
    rw [base64]
    simp only [List.cons_append, unbase64]
    rw [base64Value_base64Char (by omega), base64Value_base64Char (by omega),
      base64Value_base64Char (by omega), base64Value_base64Char (by omega),
      ofNat_eq_of_toNat (show _ = a.toNat by omega), ofNat_eq_of_toNat (show _ = b.toNat by omega),
      ofNat_eq_of_toNat (show _ = c.toNat by omega),
      if_neg (base64Char_ne (show b.toNat % 16 * 4 + c.toNat / 64 < 64 by omega)).1,
      if_neg (base64Char_ne (show c.toNat % 64 < 64 by omega)).1]
    simpa only [List.cons_prefix_cons, true_and] using ih

/-- A text that is cut off stands for the bytes at the beginning, if it stands for any. -/
theorem prefix_of_base64_prefix {l l' : List UInt8} (h : base64 l <+: base64 l') : l <+: l' := by
  obtain ⟨t, ht⟩ := h
  have := unbase64_append l t
  rwa [ht, unbase64_base64] at this

/-- Bytes that fill their last group are encoded apart from what follows them. -/
theorem base64_append {l : List UInt8} (h : 3 ∣ l.length) (r : List UInt8) :
    base64 (l ++ r) = base64 l ++ base64 r := by
  induction l using base64.induct with
  | case1 => rfl
  | case2 a =>
    rw [List.length_singleton] at h
    omega
  | case3 a b =>
    rw [List.length_cons, List.length_singleton] at h
    omega
  | case4 a b c rest ih =>
    simp only [List.length_cons] at h
    simp only [List.cons_append, base64, ih (by omega)]

/-- The decoder: padding and the bits that it stands for are checked, so it takes the texts
    that an encoder gives. -/
def decodeBase64 (t : Text) : Option (List UInt8) :=
  if base64 (unbase64 t) = t then some (unbase64 t) else none

theorem decodeBase64_eq_some {t : Text} {l : List UInt8} :
    decodeBase64 t = some l ↔ t = base64 l := by
  constructor
  · intro h
    unfold decodeBase64 at h
    split_ifs at h with ht
    rw [← Option.some.inj h, ht]
  · rintro rfl
    unfold decodeBase64
    rw [unbase64_base64, if_pos rfl]

/-- A Base64 text has the alphabet and padding in it. -/
theorem mem_base64 {l : List UInt8} {c : Char} (h : c ∈ base64 l) :
    c = '=' ∨ ∃ n < 64, c = base64Char n := by
  induction l using base64.induct with
  | case1 => cases h
  | case2 a =>
    have ha := a.toNat_lt
    simp only [base64, List.mem_cons, List.not_mem_nil, or_false] at h
    rcases h with rfl | rfl | rfl | rfl
    · exact Or.inr ⟨_, by omega, rfl⟩
    · exact Or.inr ⟨_, by omega, rfl⟩
    · exact Or.inl rfl
    · exact Or.inl rfl
  | case3 a b =>
    have ha := a.toNat_lt
    have hb := b.toNat_lt
    simp only [base64, List.mem_cons, List.not_mem_nil, or_false] at h
    rcases h with rfl | rfl | rfl | rfl
    · exact Or.inr ⟨_, by omega, rfl⟩
    · exact Or.inr ⟨_, by omega, rfl⟩
    · exact Or.inr ⟨_, by omega, rfl⟩
    · exact Or.inl rfl
  | case4 a b d rest ih =>
    have ha := a.toNat_lt
    have hb := b.toNat_lt
    have hd := d.toNat_lt
    simp only [base64, List.mem_cons] at h
    rcases h with rfl | rfl | rfl | rfl | h
    · exact Or.inr ⟨_, by omega, rfl⟩
    · exact Or.inr ⟨_, by omega, rfl⟩
    · exact Or.inr ⟨_, by omega, rfl⟩
    · exact Or.inr ⟨_, by omega, rfl⟩
    · exact ih h

/-- A Base64 text has no space and no line break. -/
theorem base64_ne_space {l : List UInt8} {c : Char} (h : c ∈ base64 l) : c ≠ ' ' ∧ c ≠ '\n' := by
  rcases mem_base64 h with rfl | ⟨n, hn, rfl⟩
  · exact ⟨by decide, by decide⟩
  · exact (base64Char_ne hn).2

/-! ## Delimited parts -/

/-- What comes before the first delimiter, and what comes after it. -/
theorem append_cons_inj {α : Type} {l l' r r' : List α} {x : α} (hl : x ∉ l) (hl' : x ∉ l')
    (h : l ++ x :: r = l' ++ x :: r') : l = l' ∧ r = r' := by
  induction l generalizing l' with
  | nil =>
    cases l' with
    | nil => exact ⟨rfl, (List.cons.inj h).2⟩
    | cons y l' => exact absurd ((List.cons.inj h).1 ▸ List.mem_cons_self) hl'
  | cons y l ih =>
    cases l' with
    | nil => exact absurd ((List.cons.inj h).1 ▸ List.mem_cons_self) hl
    | cons z l' =>
      obtain ⟨rfl, htail⟩ := List.cons.inj h
      obtain ⟨rfl, rfl⟩ := ih (fun hx => hl (List.mem_cons_of_mem _ hx))
        (fun hx => hl' (List.mem_cons_of_mem _ hx)) htail
      exact ⟨rfl, rfl⟩

/-- A part at the end, by its first element. -/
theorem suffix_append_iff {α : Type} {c : α} {p a t : List α} (h : c ∉ a) :
    c :: p <:+ a ++ t ↔ c :: p <:+ t := by
  induction a with
  | nil => rfl
  | cons d a ih =>
    rw [List.mem_cons, not_or] at h
    rw [List.cons_append, List.suffix_cons_iff, ih h.2]
    refine or_iff_right fun heq => ?_
    exact h.1 (List.cons.inj heq).1

/-- What comes after the last delimiter, and what comes before it. -/
theorem append_cons_inj_right {α : Type} {l l' r r' : List α} {x : α} (hr : x ∉ r) (hr' : x ∉ r')
    (h : l ++ x :: r = l' ++ x :: r') : l = l' ∧ r = r' := by
  have hrev : r.reverse ++ x :: l.reverse = r'.reverse ++ x :: l'.reverse := by
    simpa using congrArg List.reverse h
  obtain ⟨h1, h2⟩ := append_cons_inj (by simpa using hr) (by simpa using hr') hrev
  exact ⟨List.reverse_inj.mp h2, List.reverse_inj.mp h1⟩

section parts

variable {α : Type} {c : α} {u a b s r t : List α}

/-- A part at the end that does not have the delimiter. -/
theorem suffix_of_suffix_append_cons (hu : c ∉ u) (h : u <:+ a ++ c :: b) : u <:+ b := by
  have hb : c :: b <:+ a ++ c :: b := List.suffix_append a _
  rcases List.suffix_or_suffix_of_suffix h hb with hle | hle
  · rcases List.suffix_cons_iff.mp hle with rfl | hle
    · exact absurd List.mem_cons_self hu
    · exact hle
  · exact absurd (hle.subset List.mem_cons_self) hu

/-- A part that does not have the delimiter. -/
theorem infix_append_cons_iff (hu : c ∉ u) : u <:+: a ++ c :: b ↔ u <:+: a ∨ u <:+: b := by
  constructor
  · rintro ⟨p, q, h⟩
    have hwhole : p ++ u <+: a ++ c :: b := ⟨q, h⟩
    rcases List.prefix_or_prefix_of_prefix hwhole (List.prefix_append a _) with hle | ⟨w, hw⟩
    · exact Or.inl ((List.suffix_append p u).isInfix.trans hle.isInfix)
    · rw [← hw, List.prefix_append_right_inj] at hwhole
      cases w with
      | nil =>
        rw [List.append_nil] at hw
        exact Or.inl (hw ▸ (List.suffix_append p u).isInfix)
      | cons x w =>
        obtain ⟨rfl, hle⟩ := List.cons_prefix_cons.mp hwhole
        have hsuffix : u <:+ a ++ x :: w := hw ▸ List.suffix_append p u
        exact Or.inr ((suffix_of_suffix_append_cons hu hsuffix).isInfix.trans hle.isInfix)
  · rintro (h | h)
    · exact List.infix_append_of_infix_left h
    · exact List.infix_append_of_infix_right (List.infix_cons h)

/-- A part that ends with the delimiter, and has no other one. -/
theorem infix_append_cons_iff_of_last (hu : c ∉ u) :
    u ++ [c] <:+: a ++ c :: b ↔ u ++ [c] <:+: a ++ [c] ∨ u ++ [c] <:+: b := by
  have hcons : ∀ b : List α, a ++ c :: b = a ++ [c] ++ b := fun b => by simp
  constructor
  · rintro ⟨p, q, h⟩
    have hwhole : p ++ (u ++ [c]) <+: a ++ [c] ++ b := hcons b ▸ ⟨q, h⟩
    rcases List.prefix_or_prefix_of_prefix hwhole (List.prefix_append _ b) with hle | ⟨w, hw⟩
    · exact Or.inl ((List.suffix_append p _).isInfix.trans hle.isInfix)
    · rw [← hw, List.prefix_append_right_inj] at hwhole
      rcases List.eq_nil_or_concat w with rfl | ⟨w, x, rfl⟩
      · rw [List.append_nil] at hw
        exact Or.inl (hw ▸ (List.suffix_append p _).isInfix)
      · rw [List.concat_eq_append] at hw hwhole
        rw [← List.append_assoc, ← List.append_assoc, ← hcons] at hw
        obtain ⟨hw, hx⟩ := List.append_inj' hw rfl
        obtain rfl := (List.cons.inj hx).1
        have hsuffix : u <:+ w := suffix_of_suffix_append_cons hu (hw ▸ List.suffix_append p u)
        obtain ⟨v, rfl⟩ := hsuffix
        rw [List.append_assoc] at hwhole
        exact Or.inr ((List.suffix_append v _).isInfix.trans hwhole.isInfix)
  · rintro (h | h)
    · rw [hcons]
      exact List.infix_append_of_infix_left h
    · exact List.infix_append_of_infix_right (List.infix_cons h)

/-- No part at the end of `t` is a beginning of `s`, or begins with `s`. -/
def Apart (s t : List α) : Prop := ∀ x ∈ t.tails, x ≠ [] → ¬ x <+: s ∧ ¬ s <+: x

instance [DecidableEq α] (s t : List α) : Decidable (Apart s t) :=
  inferInstanceAs (Decidable (∀ x ∈ t.tails, x ≠ [] → ¬ x <+: s ∧ ¬ s <+: x))

/-- What begins with `s` does not begin in such a text. -/
theorem infix_append_iff_of_apart (h : Apart s t) : s ++ r <:+: t ++ b ↔ s ++ r <:+: b := by
  induction t with
  | nil => rfl
  | cons x t ih =>
    unfold Apart at h
    rw [List.tails_cons, List.forall_mem_cons] at h
    rw [List.cons_append, List.infix_cons_iff, ih h.2]
    refine or_iff_right fun hpre => ?_
    obtain ⟨hshort, hlong⟩ := h.1 (List.cons_ne_nil x t)
    have hs : s <+: x :: t ++ b := (List.prefix_append s r).trans hpre
    rcases List.prefix_or_prefix_of_prefix hs (List.prefix_append (x :: t) b) with hx | hx
    · exact hlong hx
    · exact hshort hx

end parts

end Kubenyx.Common
