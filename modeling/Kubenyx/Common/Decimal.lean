import Kubenyx.Common.Encoding

/-!
# Decimal numerals

`decimal` is the numeral without leading zeros that formatting a number prints. It is
injective and has only digits, so a numeral can be read back at the end of a name. Reading a
number back is more lenient than writing it: leading zeros and a sign are accepted.

* `parseUnsigned_decimal`: a number that fits is read from its numeral.
-/

namespace Kubenyx.Common

/-- The decimal numeral of a number. -/
def decimal (n : ℕ) : Text := Nat.toDigits 10 n

/-- The numeral of an integer, with its sign. -/
def intText : ℤ → Text
  | .ofNat n => decimal n
  | .negSucc n => '-' :: decimal (n + 1)

/-- Only the numeral of zero begins with a zero. -/
theorem eq_zero_of_head?_toDigits {b n : ℕ} (hb : 1 < b) (hb' : b ≤ 16)
    (h : (Nat.toDigits b n).head? = some '0') : n = 0 := by
  induction n using Nat.strong_induction_on with
  | _ n ih =>
    by_cases hlt : n < b
    · have hchar : ∀ d < 16, d.digitChar = '0' → d = 0 := by decide
      rw [Nat.toDigits_of_lt_base hlt] at h
      exact hchar n (by omega) (Option.some.inj h)
    · have hdiv : n / b < n := Nat.div_lt_self (by omega) hb
      rw [Nat.toDigits_of_base_le hb (by omega),
        List.head?_append_of_ne_nil _ Nat.toDigits_ne_nil] at h
      have hpos : 0 < n / b := Nat.div_pos (by omega) (by omega)
      have := ih (n / b) hdiv h
      omega

theorem exists_digitChar_of_mem_toDigits {b n : ℕ} (hb : 1 < b) {c : Char}
    (h : c ∈ Nat.toDigits b n) : ∃ d < b, d.digitChar = c := by
  induction n using Nat.strong_induction_on with
  | _ n ih =>
    by_cases hlt : n < b
    · rw [Nat.toDigits_of_lt_base hlt, List.mem_singleton] at h
      exact ⟨n, hlt, h.symm⟩
    · rw [Nat.toDigits_of_base_le hb (by omega), List.mem_append, List.mem_singleton] at h
      rcases h with h | rfl
      · exact ih (n / b) (Nat.div_lt_self (by omega) hb) h
      · exact ⟨n % b, Nat.mod_lt _ (by omega), rfl⟩

theorem decimal_ne_nil (n : ℕ) : decimal n ≠ [] := Nat.toDigits_ne_nil

theorem isDigit_of_mem_decimal {n : ℕ} {c : Char} (h : c ∈ decimal n) : c.isDigit = true :=
  Nat.isDigit_of_mem_toDigits (by decide) (by decide) h

theorem all_isDigit_decimal (n : ℕ) : (decimal n).all Char.isDigit = true :=
  List.all_eq_true.mpr fun _ h => isDigit_of_mem_decimal h

theorem not_mem_decimal {c : Char} (hc : c.isDigit = false) (n : ℕ) : c ∉ decimal n := by
  intro h
  rw [isDigit_of_mem_decimal h] at hc
  exact absurd hc (by decide)

theorem ofDigitChars_decimal (n : ℕ) : Nat.ofDigitChars 10 (decimal n) 0 = n :=
  Nat.ofDigitChars_ten_toDigits

theorem decimal_injective : Function.Injective decimal := by
  intro m n h
  rw [← ofDigitChars_decimal m, h, ofDigitChars_decimal]

theorem ofDigitChars_lt {t : Text} (h : ∀ c ∈ t, c.isDigit = true) :
    Nat.ofDigitChars 10 t 0 < 10 ^ t.length := by
  induction t using List.reverseRecOn with
  | nil => decide
  | append_singleton t c ih =>
    have hrest := ih fun x hx => h x (List.mem_append_left _ hx)
    have hc : c.toNat ≤ 57 := (Char.isDigit_iff_toNat.mp (h c (by simp))).2
    rw [Nat.ofDigitChars_append, Nat.ofDigitChars_cons, Nat.ofDigitChars_nil, List.length_append,
      List.length_singleton, pow_succ, show '0'.toNat = 48 from rfl]
    omega

/-! ## Reading -/

/-- `parse` for an unsigned integer type of `bits` bits: a plus sign is allowed. -/
def parseUnsigned (bits : ℕ) (t : Text) : Option ℕ :=
  let digits := if t.head? = some '+' then t.tail else t
  if digits = [] ∨ digits.all Char.isDigit = false then none
  else
    let n := Nat.ofDigitChars 10 digits 0
    if n < 2 ^ bits then some n else none

/-- `parse` for a signed integer type of `bits` bits. -/
def parseSigned (bits : ℕ) (t : Text) : Option ℤ :=
  let negative := t.head? = some '-'
  let digits := if t.head? = some '+' ∨ negative then t.tail else t
  if digits = [] ∨ digits.all Char.isDigit = false then none
  else
    let magnitude : ℤ := Nat.ofDigitChars 10 digits 0
    let n := if negative then -magnitude else magnitude
    if -2 ^ (bits - 1) ≤ n ∧ n < 2 ^ (bits - 1) then some n else none

/-- Digits are read whatever they begin with. -/
theorem parseUnsigned_digits {bits : ℕ} {t : Text} (hne : t ≠ [])
    (hdigits : ∀ c ∈ t, c.isDigit = true) (h : Nat.ofDigitChars 10 t 0 < 2 ^ bits) :
    parseUnsigned bits t = some (Nat.ofDigitChars 10 t 0) := by
  have hsign : ¬ t.head? = some '+' := fun hhead =>
    absurd (hdigits _ (List.mem_of_mem_head? hhead)) (by decide)
  have hall : t.all Char.isDigit = true := List.all_eq_true.mpr hdigits
  unfold parseUnsigned
  simp only [hsign, hne, hall, if_false, Bool.true_eq_false, or_self]
  rw [if_pos h]

theorem parseUnsigned_decimal {bits n : ℕ} (h : n < 2 ^ bits) :
    parseUnsigned bits (decimal n) = some n := by
  have hread := @parseUnsigned_digits bits (decimal n) (decimal_ne_nil n)
    (fun _ hc => isDigit_of_mem_decimal hc)
  rw [ofDigitChars_decimal] at hread
  exact hread h

theorem lt_of_parseUnsigned {bits n : ℕ} {t : Text} (h : parseUnsigned bits t = some n) :
    n < 2 ^ bits := by
  unfold parseUnsigned at h
  dsimp only at h
  split_ifs at h with _ _ hlt
  · obtain rfl := Option.some.inj h
    exact hlt
  · obtain rfl := Option.some.inj h
    assumption

theorem bounds_of_parseSigned {bits : ℕ} {n : ℤ} {t : Text} (h : parseSigned bits t = some n) :
    -2 ^ (bits - 1) ≤ n ∧ n < 2 ^ (bits - 1) := by
  unfold parseSigned at h
  dsimp only at h
  split_ifs at h
  all_goals
    obtain rfl := Option.some.inj h
    assumption

end Kubenyx.Common
