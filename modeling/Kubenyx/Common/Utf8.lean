import Kubenyx.Common.Encoding

/-!
# Lossy decoding of UTF-8

`String::from_utf8_lossy`: what is no UTF-8 becomes the replacement character, one for each
longest start of a character that does not go on. The decoder reads a byte at a time and keeps
the character that it is in.

* `fromUtf8Lossy_utf8`: UTF-8 is decoded to the text that it encodes.
* `fromUtf8Lossy_cons`: a byte of ASCII stands for itself whatever is around it.
* `mem_of_mem_fromUtf8Lossy`: and a character of ASCII comes from such a byte only.
-/

namespace Kubenyx.Common

namespace Utf8

/-- `char::REPLACEMENT_CHARACTER`. -/
def replacement : Char := '\uFFFD'

/-- A character that is not read to its end: its bits so far, how many bytes follow the next
    one, and the first byte if that is all that was read. -/
structure Begun where
  bits : ℕ
  more : ℕ
  lead : ℕ
  deriving DecidableEq

/-- The bytes that may come next. The second byte excludes encodings that are longer than
    needed, the surrogates, and what is past the last character. -/
def Begun.range (p : Begun) : ℕ × ℕ :=
  if p.lead = 0xe0 then (0xa0, 0xbf)
  else if p.lead = 0xed then (0x80, 0x9f)
  else if p.lead = 0xf0 then (0x90, 0xbf)
  else if p.lead = 0xf4 then (0x80, 0x8f)
  else (0x80, 0xbf)

/-- A byte between two characters: what is decoded, and the character that it begins. -/
def first (b : UInt8) : Text × Option Begun :=
  let n := b.toNat
  if n < 0x80 then ([Char.ofNat n], none)
  else if 0xc2 ≤ n ∧ n ≤ 0xdf then ([], some ⟨n - 0xc0, 0, n⟩)
  else if 0xe0 ≤ n ∧ n ≤ 0xef then ([], some ⟨n - 0xe0, 1, n⟩)
  else if 0xf0 ≤ n ∧ n ≤ 0xf4 then ([], some ⟨n - 0xf0, 2, n⟩)
  else ([replacement], none)

/-- A byte inside a character. One that does not continue it is looked at again after it. -/
def next (p : Begun) (b : UInt8) : Text × Option Begun :=
  let n := b.toNat
  if p.range.1 ≤ n ∧ n ≤ p.range.2 then
    let bits := p.bits * 64 + (n - 0x80)
    if p.more = 0 then ([Char.ofNat bits], none) else ([], some ⟨bits, p.more - 1, 0⟩)
  else (replacement :: (first b).1, (first b).2)

/-- One byte. -/
def step (s : Option Begun) (b : UInt8) : Text × Option Begun := s.elim (first b) (next · b)

/-- All bytes: the text, and the character that the last of them leave open. -/
def run : Option Begun → List UInt8 → Text × Option Begun
  | s, [] => ([], s)
  | s, b :: bs => ((step s b).1 ++ (run (step s b).2 bs).1, (run (step s b).2 bs).2)

/-- What stands for a character that is left open. -/
def flush (s : Option Begun) : Text := s.elim [] fun _ => [replacement]

end Utf8

open Utf8 in
/-- `String::from_utf8_lossy`. -/
def fromUtf8Lossy (bs : List UInt8) : Text := (run none bs).1 ++ flush (run none bs).2

example : fromUtf8Lossy [0x61, 0xe2, 0x82, 0xac, 0xe2, 0x82, 0x0d, 0xff] =
    ['a', '€', '\uFFFD', '\r', '\uFFFD'] := by
  decide

namespace Utf8

variable {s : Option Begun} {b : UInt8} {c : Char}

theorem run_append (s : Option Begun) (as bs : List UInt8) :
    run s (as ++ bs) = ((run s as).1 ++ (run (run s as).2 bs).1, (run (run s as).2 bs).2) := by
  induction as generalizing s with
  | nil => rfl
  | cons a as ih => simp only [List.cons_append, run, ih, List.append_assoc]

theorem le_range (p : Begun) : 0x80 ≤ p.range.1 := by
  unfold Begun.range
  split_ifs <;> decide

theorem range_of_lead_zero {p : Begun} (h : p.lead = 0) : p.range = (0x80, 0xbf) := by
  unfold Begun.range
  rw [h]
  rfl

/-! ## ASCII -/

theorem step_ascii (h : b.toNat < 0x80) : step s b = (flush s ++ [Char.ofNat b.toNat], none) := by
  have hfirst : first b = ([Char.ofNat b.toNat], none) := if_pos h
  cases s with
  | none => exact hfirst
  | some p =>
    have hrange := le_range p
    show next p b = _
    unfold next
    dsimp only
    rw [if_neg (by omega), hfirst]
    rfl

theorem run_append_ascii (h : b.toNat < 0x80) (as bs : List UInt8) :
    run s (as ++ b :: bs) = ((run s as).1 ++ flush (run s as).2 ++ Char.ofNat b.toNat ::
      (run none bs).1, (run none bs).2) := by
  rw [run_append, run, step_ascii h]
  simp

/-! ## Which characters are decoded -/

/-- What is begun will be no character of ASCII. -/
def Begun.Long (p : Begun) : Prop := 0x80 ≤ (p.bits * 64 + (p.range.1 - 0x80)) * 64 ^ p.more

theorem long_of_first {p : Begun} (h : (first b).2 = some p) : p.Long := by
  unfold first at h
  dsimp only at h
  unfold Begun.Long Begun.range
  split_ifs at h with h1 h2 h3 h4 <;> obtain rfl := Option.some.inj h
  · simp only [pow_zero]
    omega
  · dsimp only
    split_ifs <;> dsimp only <;> omega
  · dsimp only
    split_ifs <;> dsimp only <;> omega

theorem toNat_of_eq_ofNat {n : ℕ} (hc : c.toNat ≠ 0) (h : c = Char.ofNat n) : c.toNat = n := by
  rw [h, Char.toNat_ofNat] at hc ⊢
  split_ifs at hc ⊢ with hvalid
  · rfl
  · exact absurd rfl hc

theorem replacement_toNat : replacement.toNat = 0xfffd := by decide

theorem mem_first (hc : c.toNat ≠ 0) (hascii : c.toNat < 0x80) (h : c ∈ (first b).1) :
    b.toNat = c.toNat := by
  unfold first at h
  dsimp only at h
  split_ifs at h
  · exact (toNat_of_eq_ofNat hc (List.mem_singleton.mp h)).symm
  · simp at h
  · simp at h
  · simp at h
  · rw [List.mem_singleton.mp h, replacement_toNat] at hascii
    omega

section step

variable (hs : ∀ p ∈ s, p.Long)

include hs

theorem long_step : ∀ p ∈ (step s b).2, p.Long := by
  intro p' hp'
  cases s with
  | none => exact long_of_first hp'
  | some p =>
    have hlong := hs p rfl
    replace hp' : p' ∈ (next p b).2 := hp'
    unfold next at hp'
    dsimp only at hp'
    split_ifs at hp' with hrange hmore
    · simp at hp'
    · obtain rfl := Option.some.inj hp'
      obtain ⟨m, hm⟩ : ∃ m, p.more = m + 1 := ⟨p.more - 1, by omega⟩
      unfold Begun.Long at hlong ⊢
      rw [range_of_lead_zero rfl, Nat.sub_self, Nat.add_zero]
      dsimp only
      rw [hm, pow_succ] at hlong
      rw [hm, Nat.add_sub_cancel]
      calc 0x80 ≤ (p.bits * 64 + (p.range.1 - 0x80)) * (64 ^ m * 64) := hlong
        _ ≤ (p.bits * 64 + (b.toNat - 0x80)) * (64 ^ m * 64) := Nat.mul_le_mul_right _ (by omega)
        _ = (p.bits * 64 + (b.toNat - 0x80)) * 64 * 64 ^ m := by ring
    · exact long_of_first hp'

theorem mem_step (hc : c.toNat ≠ 0) (hascii : c.toNat < 0x80) (h : c ∈ (step s b).1) :
    b.toNat = c.toNat := by
  cases s with
  | none => exact mem_first hc hascii h
  | some p =>
    have hlong := hs p rfl
    replace h : c ∈ (next p b).1 := h
    unfold next at h
    dsimp only at h
    split_ifs at h with hrange hmore
    · -- the last byte of a character makes a number past ASCII
      have hvalue := toNat_of_eq_ofNat hc (List.mem_singleton.mp h)
      unfold Begun.Long at hlong
      rw [hmore, pow_zero] at hlong
      omega
    · simp at h
    · rcases List.mem_cons.mp h with rfl | h
      · rw [replacement_toNat] at hascii
        omega
      · exact mem_first hc hascii h

theorem mem_run (hc : c.toNat ≠ 0) (hascii : c.toNat < 0x80) {bs : List UInt8}
    (h : c ∈ (run s bs).1) : ∃ b ∈ bs, b.toNat = c.toNat := by
  induction bs generalizing s with
  | nil => simp [run] at h
  | cons b bs ih =>
    rcases List.mem_append.mp h with h | h
    · exact ⟨b, List.mem_cons_self, mem_step hs hc hascii h⟩
    · obtain ⟨b', hb', heq⟩ := ih (long_step hs) h
      exact ⟨b', List.mem_cons_of_mem _ hb', heq⟩

end step

/-! ## Encoded characters -/

theorem next_last {p : Begun} (hmore : p.more = 0) (hlo : p.range.1 ≤ b.toNat)
    (hhi : b.toNat ≤ p.range.2) :
    next p b = ([Char.ofNat (p.bits * 64 + (b.toNat - 0x80))], none) := by
  unfold next
  dsimp only
  rw [if_pos ⟨hlo, hhi⟩, if_pos hmore]

theorem next_more {p : Begun} {m : ℕ} (hmore : p.more = m + 1) (hlo : p.range.1 ≤ b.toNat)
    (hhi : b.toNat ≤ p.range.2) :
    next p b = ([], some ⟨p.bits * 64 + (b.toNat - 0x80), m, 0⟩) := by
  unfold next
  dsimp only
  rw [if_pos ⟨hlo, hhi⟩, if_neg (by omega), hmore, Nat.add_sub_cancel]

theorem run_cons_some (p : Begun) (b : UInt8) (bs : List UInt8) :
    run (some p) (b :: bs) = ((next p b).1 ++ (run (next p b).2 bs).1, (run (next p b).2 bs).2) := rfl

section widths

variable {w x y z : UInt8} {v : ℕ}

theorem run_two (hlo : 0x80 ≤ v) (hhi : v ≤ 0x7ff) (hy : y.toNat = v / 64 + 0xc0)
    (hz : z.toNat = v % 64 + 0x80) : run none [y, z] = ([Char.ofNat v], none) := by
  have hfirst : first y = ([], some ⟨v / 64, 0, y.toNat⟩) := by
    unfold first
    dsimp only
    rw [if_neg (by omega), if_pos (by omega), show y.toNat - 0xc0 = v / 64 by omega]
  have hrange : (⟨v / 64, 0, y.toNat⟩ : Begun).range = (0x80, 0xbf) := by
    unfold Begun.range
    dsimp only
    rw [if_neg (by omega), if_neg (by omega), if_neg (by omega), if_neg (by omega)]
  have hlast : next ⟨v / 64, 0, y.toNat⟩ z = ([Char.ofNat v], none) := by
    rw [next_last rfl (by rw [hrange]; dsimp only; omega) (by rw [hrange]; dsimp only; omega)]
    rw [show v / 64 * 64 + (z.toNat - 0x80) = v by omega]
  show ((first y).1 ++ (run (first y).2 [z]).1, (run (first y).2 [z]).2) = _
  rw [hfirst, run_cons_some, hlast]
  rfl

theorem run_three (hlo : 0x800 ≤ v) (hhi : v ≤ 0xffff) (hsurrogate : v < 0xd800 ∨ 0xdfff < v)
    (hx : x.toNat = v / 4096 + 0xe0) (hy : y.toNat = v / 64 % 64 + 0x80)
    (hz : z.toNat = v % 64 + 0x80) : run none [x, y, z] = ([Char.ofNat v], none) := by
  have hfirst : first x = ([], some ⟨v / 4096, 1, x.toNat⟩) := by
    unfold first
    dsimp only
    rw [if_neg (by omega), if_neg (by omega), if_pos (by omega),
      show x.toNat - 0xe0 = v / 4096 by omega]
  have hrange : (⟨v / 4096, 1, x.toNat⟩ : Begun).range.1 ≤ y.toNat ∧
      y.toNat ≤ (⟨v / 4096, 1, x.toNat⟩ : Begun).range.2 := by
    unfold Begun.range
    dsimp only
    split_ifs <;> dsimp only <;> omega
  have hsecond : next ⟨v / 4096, 1, x.toNat⟩ y = ([], some ⟨v / 64, 0, 0⟩) := by
    rw [next_more rfl hrange.1 hrange.2]
    dsimp only
    rw [show v / 4096 * 64 + (y.toNat - 0x80) = v / 64 by omega]
  have hlast : next ⟨v / 64, 0, 0⟩ z = ([Char.ofNat v], none) := by
    rw [next_last rfl (by rw [range_of_lead_zero rfl]; dsimp only; omega)
      (by rw [range_of_lead_zero rfl]; dsimp only; omega)]
    rw [show v / 64 * 64 + (z.toNat - 0x80) = v by omega]
  show ((first x).1 ++ (run (first x).2 [y, z]).1, (run (first x).2 [y, z]).2) = _
  rw [hfirst, run_cons_some, hsecond, run_cons_some, hlast]
  rfl

theorem run_four (hlo : 0x10000 ≤ v) (hhi : v ≤ 0x10ffff) (hw : w.toNat = v / 262144 + 0xf0)
    (hx : x.toNat = v / 4096 % 64 + 0x80) (hy : y.toNat = v / 64 % 64 + 0x80)
    (hz : z.toNat = v % 64 + 0x80) : run none [w, x, y, z] = ([Char.ofNat v], none) := by
  have hfirst : first w = ([], some ⟨v / 262144, 2, w.toNat⟩) := by
    unfold first
    dsimp only
    rw [if_neg (by omega), if_neg (by omega), if_neg (by omega), if_pos (by omega),
      show w.toNat - 0xf0 = v / 262144 by omega]
  have hrange : (⟨v / 262144, 2, w.toNat⟩ : Begun).range.1 ≤ x.toNat ∧
      x.toNat ≤ (⟨v / 262144, 2, w.toNat⟩ : Begun).range.2 := by
    unfold Begun.range
    dsimp only
    split_ifs <;> dsimp only <;> omega
  have hsecond : next ⟨v / 262144, 2, w.toNat⟩ x = ([], some ⟨v / 4096, 1, 0⟩) := by
    rw [next_more rfl hrange.1 hrange.2]
    dsimp only
    rw [show v / 262144 * 64 + (x.toNat - 0x80) = v / 4096 by omega]
  have hthird : next ⟨v / 4096, 1, 0⟩ y = ([], some ⟨v / 64, 0, 0⟩) := by
    rw [next_more rfl (by rw [range_of_lead_zero rfl]; dsimp only; omega)
      (by rw [range_of_lead_zero rfl]; dsimp only; omega)]
    dsimp only
    rw [show v / 4096 * 64 + (y.toNat - 0x80) = v / 64 by omega]
  have hlast : next ⟨v / 64, 0, 0⟩ z = ([Char.ofNat v], none) := by
    rw [next_last rfl (by rw [range_of_lead_zero rfl]; dsimp only; omega)
      (by rw [range_of_lead_zero rfl]; dsimp only; omega)]
    rw [show v / 64 * 64 + (z.toNat - 0x80) = v by omega]
  show ((first w).1 ++ (run (first w).2 [x, y, z]).1, (run (first w).2 [x, y, z]).2) = _
  rw [hfirst, run_cons_some, hsecond, run_cons_some, hthird, run_cons_some, hlast]
  rfl

end widths

/-- The bytes of a character are decoded to it. -/
theorem run_utf8EncodeChar (c : Char) : run none (String.utf8EncodeChar c) = ([c], none) := by
  have hvalid : c.val.toNat < 0xd800 ∨ 0xdfff < c.val.toNat ∧ c.val.toNat < 0x110000 := c.valid
  have hback : Char.ofNat c.val.toNat = c := Char.ofNat_toNat c
  have hbyte : ∀ {n : ℕ}, n < 256 → (UInt8.ofNat n).toNat = n := fun h =>
    UInt8.toNat_ofNat_of_lt' h
  unfold String.utf8EncodeChar
  dsimp only
  generalize c.val.toNat = v at hvalid hback ⊢
  rw [← hback]
  split_ifs with h1 h2 h3
  · have hv : (UInt8.ofNat v).toNat = v := hbyte (by omega)
    show ((step none (UInt8.ofNat v)).1 ++ [], (step none (UInt8.ofNat v)).2) = _
    rw [step_ascii (by omega), hv]
    rfl
  · refine run_two (by omega) h2 ?_ ?_
    · rw [hbyte (by omega)]
      omega
    · rw [hbyte (by omega)]
  · refine run_three (by omega) h3 (by omega) ?_ ?_ ?_
    · rw [hbyte (by omega)]
      omega
    · rw [hbyte (by omega)]
    · rw [hbyte (by omega)]
  · refine run_four (by omega) (by omega) ?_ ?_ ?_ ?_
    · rw [hbyte (by omega)]
      omega
    · rw [hbyte (by omega)]
    · rw [hbyte (by omega)]
    · rw [hbyte (by omega)]

theorem run_utf8 (t : Text) : run none (utf8 t) = (t, none) := by
  induction t with
  | nil => rfl
  | cons c t ih =>
    show run none (String.utf8EncodeChar c ++ utf8 t) = _
    rw [run_append, run_utf8EncodeChar, ih]
    rfl

end Utf8

open Utf8

variable {bs : List UInt8}

theorem fromUtf8Lossy_append (t : Text) (bs : List UInt8) :
    fromUtf8Lossy (utf8 t ++ bs) = t ++ fromUtf8Lossy bs := by
  unfold fromUtf8Lossy
  rw [run_append, run_utf8, List.append_assoc]

theorem fromUtf8Lossy_utf8 (t : Text) : fromUtf8Lossy (utf8 t) = t := by
  rw [← List.append_nil (utf8 t), fromUtf8Lossy_append]
  exact List.append_nil t

theorem fromUtf8Lossy_cons {b : UInt8} (h : b.toNat < 0x80) (as bs : List UInt8) :
    fromUtf8Lossy (as ++ b :: bs) =
      fromUtf8Lossy as ++ Char.ofNat b.toNat :: fromUtf8Lossy bs := by
  unfold fromUtf8Lossy
  rw [run_append_ascii h]
  simp only [List.append_assoc, List.cons_append]

theorem mem_of_mem_fromUtf8Lossy {c : Char} (hc : c.toNat ≠ 0) (hascii : c.toNat < 0x80)
    (h : c ∈ fromUtf8Lossy bs) : ∃ b ∈ bs, b.toNat = c.toNat := by
  rcases List.mem_append.mp h with h | h
  · exact mem_run (by simp) hc hascii h
  · cases hflush : (run none bs).2 with
    | none => simp [hflush, flush] at h
    | some p =>
      rw [hflush, flush, Option.elim, List.mem_singleton] at h
      rw [h, replacement_toNat] at hascii
      omega

/-- A byte of ASCII in an encoded text is a character of it. -/
theorem mem_of_mem_utf8 {b : UInt8} (hb : b.toNat < 0x80) {t : Text} (h : b ∈ utf8 t) :
    Char.ofNat b.toNat ∈ t := by
  obtain ⟨as, bs, heq⟩ := List.append_of_mem h
  rw [← fromUtf8Lossy_utf8 t, heq, fromUtf8Lossy_cons hb]
  simp

end Kubenyx.Common
