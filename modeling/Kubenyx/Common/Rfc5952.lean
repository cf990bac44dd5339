import Kubenyx.Common.Cidr

/-!
# Canonical IPv6 text

RFC 5952 picks one text among those that denote an address: groups in lower case without
leading zeros, and `::` for the longest run of zeros, the leftmost of them if there are
several, but never for a single zero.

* `Rfc5952.unique`: eight hextets have at most one such text.
* `Rfc5952.literal`: it denotes them.
-/

namespace Kubenyx.Common

/-! ## Groups -/

/-- A group in lower case, without a leading zero. -/
structure CanonicalGroup (g : Text) (n : ℕ) : Prop extends HexGroup g n where
  lower : ∀ c ∈ g, c.isUpper = false
  leading : g.head? = some '0' → g = ['0']

theorem digitChar_of_toDigit {c : Char} {d : ℕ} (h : IpAddr.toDigit 16 c = some d)
    (hlower : c.isUpper = false) : d.digitChar = c := by
  have hall : ∀ n : Fin 128, ∀ d ∈ IpAddr.toDigit 16 (Char.ofNat n),
      (Char.ofNat n).isUpper = false → d.digitChar = Char.ofNat n := by
    decide
  have := hall ⟨c.toNat, lt_of_toDigit h⟩ d
  simp only [Char.ofNat_toNat] at this
  exact this h hlower

/-- The numeral of a number is its digits, if these do not begin with a zero. -/
theorem toDigits_ofGroups {b : ℕ} (hb : 1 < b) {ds : List ℕ} (hne : ds ≠ []) (hlt : ∀ d ∈ ds, d < b)
    (hlead : ds.head? = some 0 → ds = [0]) :
    Nat.toDigits b (ofGroups b ds) = ds.map Nat.digitChar := by
  -- the induction takes off the last digit, as `Nat.toDigits` does
  induction ds using List.reverseRecOn with
  | nil => exact absurd rfl hne
  | append_singleton ds d ih =>
    have hd : d < b := hlt d (by simp)
    by_cases hnil : ds = []
    · subst hnil
      simpa using Nat.toDigits_of_lt_base hd
    · obtain ⟨x, xs, rfl⟩ := List.exists_cons_of_ne_nil hnil
      have hx : x ≠ 0 := by
        rintro rfl
        simpa using hlead rfl
      have hvalue : ofGroups b ((x :: xs) ++ [d]) = b * ofGroups b (x :: xs) + d := by
        unfold ofGroups
        rw [List.reverse_append, List.reverse_singleton, List.singleton_append, Nat.ofDigits_cons,
          Nat.add_comm]
      have hpos : 0 < ofGroups b (x :: xs) := by
        rw [ofGroups_cons]
        have : 0 < b ^ xs.length * x := by positivity
        omega
      have hbase : b ≤ b * ofGroups b (x :: xs) := Nat.le_mul_of_pos_right b hpos
      rw [hvalue, Nat.toDigits_of_base_le hb (by omega), Nat.mul_add_div (by omega),
        Nat.div_eq_of_lt hd, Nat.mul_add_mod, Nat.mod_eq_of_lt hd, Nat.add_zero,
        ih hnil (fun y hy => hlt y (List.mem_append_left _ hy)) fun h => absurd h (by simpa using hx),
        List.map_append]
      rfl

/-- A canonical group is the numeral of its number. -/
theorem CanonicalGroup.eq_toDigits {g : Text} {n : ℕ} (h : CanonicalGroup g n) :
    g = Nat.toDigits 16 n := by
  obtain ⟨ds, hds, rfl⟩ := h.digits
  have hmap : ∀ {g : Text} {ds : List ℕ},
      List.Forall₂ (fun c d => IpAddr.toDigit 16 c = some d) g ds →
      (∀ c ∈ g, c.isUpper = false) → ds.map Nat.digitChar = g := by
    intro g ds hds hlower
    induction hds with
    | nil => rfl
    | cons hc _ ih =>
      obtain ⟨hcl, hgl⟩ := List.forall_mem_cons.mp hlower
      rw [List.map_cons, digitChar_of_toDigit hc hcl, ih hgl]
  have hg := hmap hds h.lower
  have hne : ds ≠ [] := by
    rintro rfl
    exact h.ne_nil hg.symm
  rw [toDigits_ofGroups (by decide) hne (lt_of_digits hds), hg]
  intro hzero
  -- a leading zero of the digits is one of the text
  have hlen : ds.length = 1 := by
    have := h.leading (by rw [← hg, List.head?_map, hzero]; rfl)
    rw [← hds.length_eq, this]
    rfl
  obtain ⟨d, rfl⟩ := List.length_eq_one_iff.mp hlen
  simpa using hzero

theorem canonicalGroup_toDigits {n : ℕ} (h : n < 65536) : CanonicalGroup (Nat.toDigits 16 n) n where
  toHexGroup := hexGroup_toDigits h
  lower := by
    have hchar : ∀ d < 16, d.digitChar.isUpper = false := by decide
    intro c hc
    obtain ⟨d, hd, rfl⟩ := exists_digitChar_of_mem_toDigits (by decide) hc
    exact hchar d hd
  leading := by
    intro hzero
    rw [eq_zero_of_head?_toDigits (by decide) (by decide) hzero]
    rfl

theorem forall₂_canonicalGroup {gs : List Text} {hs : List ℕ}
    (h : List.Forall₂ CanonicalGroup gs hs) : gs = hs.map (Nat.toDigits 16) := by
  induction h with
  | nil => rfl
  | cons hg _ ih => rw [List.map_cons, ← hg.eq_toDigits, ← ih]

theorem forall₂_map_toDigits {hs : List ℕ} (h : ∀ h ∈ hs, h < 65536) :
    List.Forall₂ CanonicalGroup (hs.map (Nat.toDigits 16)) hs := by
  induction hs with
  | nil => exact .nil
  | cons x hs ih =>
    obtain ⟨hx, hhs⟩ := List.forall_mem_cons.mp h
    exact .cons (canonicalGroup_toDigits hx) (ih hhs)

/-! ## Runs of zeros -/

/-- There are zeros in `len` places from `start` on. -/
def ZeroRun (hs : List ℕ) (start len : ℕ) : Prop := ∀ i < len, hs[start + i]? = some 0

/-- The leftmost of the longest runs. -/
structure LongestRun (hs : List ℕ) (start len : ℕ) : Prop where
  run : ZeroRun hs start len
  longest : ∀ start' len', ZeroRun hs start' len' → len' ≤ len
  leftmost : ∀ start', ZeroRun hs start' len → start ≤ start'

section runs

variable {hs : List ℕ} {start len start' len' : ℕ}

theorem LongestRun.unique (h : LongestRun hs start len) (h' : LongestRun hs start' len') :
    start = start' ∧ len = len' := by
  have hlen : len = len' := le_antisymm (h'.longest _ _ h.run) (h.longest _ _ h'.run)
  subst hlen
  exact ⟨le_antisymm (h.leftmost _ h'.run) (h'.leftmost _ h.run), rfl⟩

theorem ZeroRun.le_length (h : ZeroRun hs start len) (hlen : 0 < len) :
    start + len ≤ hs.length := by
  have hlast := h (len - 1) (by omega)
  have := (List.getElem?_eq_some_iff.mp hlast).1
  omega

theorem ZeroRun.split (h : ZeroRun hs start len) :
    hs = hs.take start ++ List.replicate len 0 ++ hs.drop (start + len) := by
  have hrun : (hs.drop start).take len = List.replicate len 0 := by
    refine List.ext_getElem? fun i => ?_
    rw [List.getElem?_take, List.getElem?_replicate, List.getElem?_drop]
    split_ifs with hi
    · exact h i hi
    · rfl
  rw [List.append_assoc, ← hrun, ← List.drop_drop, List.take_append_drop, List.take_append_drop]

end runs

/-! ## Texts -/

/-- The texts that RFC 5952 recommends for hextets. -/
inductive Rfc5952 (hs : List ℕ) : Text → Prop
  | plain {gs : List Text} (hgroups : List.Forall₂ CanonicalGroup gs hs)
      (hshort : ∀ start len, ZeroRun hs start len → len < 2) : Rfc5952 hs (joined ':' gs)
  | compressed {ls rs : List Text} {start len : ℕ} (hrun : LongestRun hs start len)
      (htwo : 2 ≤ len) (hleft : List.Forall₂ CanonicalGroup ls (hs.take start))
      (hright : List.Forall₂ CanonicalGroup rs (hs.drop (start + len))) :
      Rfc5952 hs (joined ':' ls ++ ':' :: ':' :: joined ':' rs)

namespace Rfc5952

variable {hs : List ℕ} {t t' : Text}

theorem unique (h : Rfc5952 hs t) (h' : Rfc5952 hs t') : t = t' := by
  cases h with
  | plain hgroups hshort =>
    cases h' with
    | plain hgroups' _ => rw [forall₂_canonicalGroup hgroups, forall₂_canonicalGroup hgroups']
    | compressed hrun htwo _ _ => exact absurd (hshort _ _ hrun.run) (by omega)
  | compressed hrun htwo hleft hright =>
    cases h' with
    | plain _ hshort => exact absurd (hshort _ _ hrun.run) (by omega)
    | compressed hrun' _ hleft' hright' =>
      obtain ⟨rfl, rfl⟩ := hrun.unique hrun'
      rw [forall₂_canonicalGroup hleft, forall₂_canonicalGroup hleft', forall₂_canonicalGroup hright,
        forall₂_canonicalGroup hright']

theorem literal (h : Rfc5952 hs t) (hlen : hs.length = 8) : HextetLiteral t hs := by
  cases h with
  | plain hgroups _ => exact .full (hgroups.imp fun _ _ hg => hg.toHexGroup) hlen
  | @compressed ls rs start len hrun htwo hleft hright =>
    have hle := hrun.run.le_length (by omega)
    have hl : (hs.take start).length = start := by
      rw [List.length_take]
      omega
    have hr : (hs.drop (start + len)).length = 8 - start - len := by
      rw [List.length_drop]
      omega
    have hlit := HextetLiteral.compressed (hleft.imp fun _ _ hg => hg.toHexGroup)
      (hright.imp fun _ _ hg => hg.toHexGroup) (by omega)
    rw [hl, hr, show 8 - start - (8 - start - len) = len by omega, ← hrun.run.split] at hlit
    exact hlit

end Rfc5952

end Kubenyx.Common
