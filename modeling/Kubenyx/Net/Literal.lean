import Kubenyx.Common.Shell
import Kubenyx.Net.Hextets

/-!
# Which IPv6 texts are accepted

`v6ToHextets` splits an address at `::`, drops empty groups and counts the rest. Every address
in its notation passes. So does a text with a colon too many at an end of a half, and one with
a group of more than four digits, unless its number overflows.

* `exists_v6ToHextets_iff`: the texts that are read.
* `exists_hextetLiteral_iff`: the texts that are addresses.
* `judged_iff`: where the two agree.
-/

namespace Kubenyx.Net

open Kubenyx.Common

/-! ## Halves -/

/-- The halves of a text: itself if it has no two colons next to each other, or what stands
    around them if they are in one place only. -/
inductive Halves : Text → List Text → Prop
  | one {t : Text} (ht : ¬ [':', ':'] <:+: t) : Halves t [t]
  | two {l r : Text} (hl : ¬ [':', ':'] <:+: l ++ [':']) (hr : ¬ [':', ':'] <:+: r) :
      Halves (l ++ ':' :: ':' :: r) [l, r]

section split

variable {c a b : Char} {t l r : Text}

theorem pair_prefix_iff : [c, c] <+: a :: b :: t ↔ a = c ∧ b = c := by
  simp [eq_comm]

theorem pair_infix_cons_iff (h : ¬ (a = c ∧ b = c)) :
    [c, c] <:+: a :: b :: t ↔ [c, c] <:+: b :: t := by
  rw [List.infix_cons_iff, pair_prefix_iff, or_iff_right h]

theorem not_pair_infix_of_length (h : t.length < 2) : ¬ [c, c] <:+: t := fun hpair =>
  absurd hpair.length_le (Nat.not_le_of_lt h)

theorem splitPair_eq_singleton : splitPair c t = [l] ↔ t = l ∧ ¬ [c, c] <:+: t := by
  fun_induction splitPair c t generalizing l with
  | case1 a b t hab ih =>
    obtain ⟨rfl, rfl⟩ := hab
    refine iff_of_false (fun h => ?_) fun h => h.2 ⟨[], t, rfl⟩
    exact splitPair_ne_nil b t (List.cons.inj h).2
  | case2 a b t hab ih =>
    rw [pair_infix_cons_iff hab]
    obtain ⟨x, xs, hx⟩ := List.exists_cons_of_ne_nil (splitPair_ne_nil c (b :: t))
    rw [hx] at ih ⊢
    simp only [List.modifyHead_cons, List.cons.injEq] at ih ⊢
    constructor
    · rintro ⟨rfl, hxs⟩
      obtain ⟨rfl, hno⟩ := ih.mp ⟨rfl, hxs⟩
      exact ⟨rfl, hno⟩
    · rintro ⟨rfl, hno⟩
      obtain ⟨rfl, hxs⟩ := ih.mpr ⟨rfl, hno⟩
      exact ⟨rfl, hxs⟩
  | case3 t hshort =>
    have hlen : t.length < 2 := by
      rcases t with _ | ⟨x, _ | ⟨y, u⟩⟩
      · exact Nat.two_pos
      · exact Nat.one_lt_two
      · exact absurd rfl (hshort x y u)
    rw [and_iff_left (not_pair_infix_of_length hlen), List.cons.injEq, and_iff_left rfl]

/-- Where the pair comes first, the left half is empty. -/
theorem left_eq_nil (h : c :: c :: t = l ++ c :: c :: r) (hl : ¬ [c, c] <:+: l ++ [c]) :
    l = [] := by
  rcases l with _ | ⟨x, _ | ⟨y, l⟩⟩
  · rfl
  · obtain ⟨rfl, -⟩ := List.cons.inj h
    exact absurd List.infix_rfl hl
  · simp only [List.cons_append, List.cons.injEq] at h
    obtain ⟨rfl, rfl, -⟩ := h
    exact absurd ⟨[], l ++ [c], rfl⟩ hl

/-- A character in front that makes no pair makes none in the left half. -/
theorem left_infix_cons_iff (hab : ¬ (a = c ∧ b = c)) (h : b :: t = l ++ c :: c :: r) :
    [c, c] <:+: a :: l ++ [c] ↔ [c, c] <:+: l ++ [c] := by
  rcases l with _ | ⟨y, l⟩
  · obtain ⟨rfl, -⟩ := List.cons.inj h
    exact pair_infix_cons_iff hab
  · obtain ⟨rfl, -⟩ := List.cons.inj h
    exact pair_infix_cons_iff hab

theorem splitPair_eq_pair :
    splitPair c t = [l, r] ↔ t = l ++ c :: c :: r ∧ ¬ [c, c] <:+: l ++ [c] ∧ ¬ [c, c] <:+: r := by
  fun_induction splitPair c t generalizing l with
  | case1 a b t hab ih =>
    obtain ⟨rfl, rfl⟩ := hab
    rw [List.cons.injEq, splitPair_eq_singleton]
    constructor
    · rintro ⟨rfl, rfl, hno⟩
      exact ⟨rfl, not_pair_infix_of_length Nat.one_lt_two, hno⟩
    · rintro ⟨heq, hleft, hright⟩
      obtain rfl := left_eq_nil heq hleft
      obtain rfl : t = r := by simpa using heq
      exact ⟨rfl, rfl, hright⟩
  | case2 a b t hab ih =>
    obtain ⟨x, xs, hx⟩ := List.exists_cons_of_ne_nil (splitPair_ne_nil c (b :: t))
    rw [hx] at ih ⊢
    simp only [List.modifyHead_cons, List.cons.injEq] at ih ⊢
    constructor
    · rintro ⟨rfl, hxs⟩
      obtain ⟨heq, hno, hr⟩ := ih.mp ⟨rfl, hxs⟩
      exact ⟨congrArg (a :: ·) heq, (left_infix_cons_iff hab heq).not.mpr hno, hr⟩
    · rintro ⟨heq, hno, hr⟩
      rcases l with _ | ⟨y, l'⟩
      · simp only [List.nil_append, List.cons.injEq] at heq
        exact absurd ⟨heq.1, heq.2.1⟩ hab
      · rw [List.cons_append, List.cons.injEq] at heq
        obtain ⟨rfl, heq⟩ := heq
        obtain ⟨rfl, hxs⟩ := ih.mpr ⟨heq, (left_infix_cons_iff hab heq).not.mp hno, hr⟩
        exact ⟨rfl, hxs⟩
  | case3 t hshort =>
    refine iff_of_false (by simp) ?_
    rintro ⟨rfl, -⟩
    rcases l with _ | ⟨x, _ | ⟨y, l⟩⟩
    · exact hshort c c r rfl
    · exact hshort x c (c :: r) rfl
    · exact hshort x y _ rfl

end split

theorem halves_iff {t : Text} {halves : List Text} :
    Halves t halves ↔ splitPair ':' t = halves ∧ halves.length ≤ 2 := by
  constructor
  · intro h
    cases h with
    | one ht => exact ⟨splitPair_eq_singleton.mpr ⟨rfl, ht⟩, by simp⟩
    | two hl hr => exact ⟨splitPair_eq_pair.mpr ⟨rfl, hl, hr⟩, by simp⟩
  · rintro ⟨hsplit, hlen⟩
    match halves, hsplit, hlen with
    | [], hsplit, _ => exact absurd hsplit (splitPair_ne_nil ':' t)
    | [l], hsplit, _ =>
      obtain ⟨rfl, hno⟩ := splitPair_eq_singleton.mp hsplit
      exact .one hno
    | [l, r], hsplit, _ =>
      obtain ⟨rfl, hl, hr⟩ := splitPair_eq_pair.mp hsplit
      exact .two hl hr

/-! ## Groups -/

/-- Hexadecimal digits and colons only. -/
def Hexadecimal (t : Text) : Prop := ∀ c ∈ t, c = ':' ∨ (IpAddr.toDigit 16 c).isSome = true

instance (t : Text) : Decidable (Hexadecimal t) := List.decidableBAll _ t

/-- The number of a group of hexadecimal digits. -/
def hexNumber (g : Text) : ℕ := ofGroups 16 (g.map fun c => (IpAddr.toDigit 16 c).getD 0)

/-- A colon at an end of a half: one at an end of the whole text, or a third one at `::`. -/
def StrayColon (half : Text) : Prop := half.head? = some ':' ∨ half.getLast? = some ':'

instance (half : Text) : Decidable (StrayColon half) := inferInstanceAs (Decidable (_ ∨ _))

/-- Eight groups in a single half, and seven at most in two. -/
def Counted (halves : List Text) : Prop :=
  if halves.length = 1 then (halves.flatMap groups).length = 8
  else (halves.flatMap groups).length ≤ 7

instance (halves : List Text) : Decidable (Counted halves) := inferInstanceAs (Decidable (ite _ _ _))

section groups

variable {t half g : Text} {halves : List Text} {gs : List Text}

theorem spec_of_mem_groups (h : g ∈ groups half) : g ≠ [] ∧ ':' ∉ g ∧ ∀ c ∈ g, c ∈ half := by
  obtain ⟨hg, hne⟩ := List.mem_filter.mp h
  refine ⟨by simpa using hne, Shell.not_mem_of_mem_splitOn hg, fun c hc => ?_⟩
  have hjoin : joined ':' (half.splitOn ':') = half := List.intercalate_splitOn ':'
  rw [← hjoin]
  exact mem_joined_of_mem hg hc

theorem Halves.mem (h : Halves t halves) (hhalf : half ∈ halves) {c : Char} (hc : c ∈ half) :
    c ∈ t := by
  cases h with
  | one ht =>
    obtain rfl := List.mem_singleton.mp hhalf
    exact hc
  | two hl hr =>
    rcases List.mem_pair.mp hhalf with rfl | rfl
    · exact List.mem_append_left _ hc
    · exact List.mem_append_right _ (List.mem_cons_of_mem _ (List.mem_cons_of_mem _ hc))

/-- The groups of a hexadecimal text are of digits. -/
theorem Halves.digits (h : Halves t halves) (ht : Hexadecimal t) (hhalf : half ∈ halves)
    (hg : g ∈ groups half) :
    List.Forall₂ (fun c d => IpAddr.toDigit 16 c = some d) g
      (g.map fun c => (IpAddr.toDigit 16 c).getD 0) := by
  obtain ⟨-, hcolon, hmem⟩ := spec_of_mem_groups hg
  rw [List.forall₂_map_right_iff, List.forall₂_same]
  intro c hc
  have hne : c ≠ ':' := fun heq => hcolon (heq ▸ hc)
  obtain ⟨d, hd⟩ := Option.isSome_iff_exists.mp
    ((ht c (h.mem hhalf (hmem c hc))).resolve_left hne)
  rw [hd]
  rfl

theorem Halves.hexToInt_isSome (h : Halves t halves) (ht : Hexadecimal t) (hhalf : half ∈ halves)
    (hg : g ∈ groups half) : (∃ n, hexToInt g = some n) ↔ hexNumber g < 2 ^ 63 := by
  rw [hexToInt_digits (h.digits ht hhalf hg)]
  simp only [nat64_eq_some]
  exact ⟨fun ⟨_, _, hlt⟩ => hlt, fun hlt => ⟨_, rfl, hlt⟩⟩

theorem Halves.hexGroup (h : Halves t halves) (ht : Hexadecimal t) (hhalf : half ∈ halves)
    (hg : g ∈ groups half) (hlen : g.length ≤ 4) : HexGroup g (hexNumber g) where
  ne_nil := (spec_of_mem_groups hg).1
  length_le := hlen
  digits := ⟨_, h.digits ht hhalf hg, rfl⟩

theorem Halves.unique {halves' : List Text} (h : Halves t halves) (h' : Halves t halves') :
    halves = halves' :=
  (halves_iff.mp h).1.symm.trans (halves_iff.mp h').1

theorem exists_mapM_iff : (∃ hs, gs.mapM hexToInt = some hs) ↔ ∀ g ∈ gs, ∃ n, hexToInt g = some n := by
  simp only [mapM_hexToInt_eq_some]
  induction gs with
  | nil => simp
  | cons g gs ih =>
    rw [List.forall_mem_cons, ← ih]
    constructor
    · rintro ⟨hs, hall⟩
      cases hall with
      | cons hg hgs => exact ⟨⟨_, hg⟩, _, hgs⟩
    · rintro ⟨⟨n, hg⟩, hs, hgs⟩
      exact ⟨n :: hs, .cons hg hgs⟩

end groups

/-! ## What is read -/

theorem exists_v6ToHextets_iff {t : Text} (ht : Hexadecimal t) :
    (∃ hs, v6ToHextets t = some hs) ↔ ∃ halves, Halves t halves ∧ Counted halves ∧
      ∀ half ∈ halves, ∀ g ∈ groups half, hexNumber g < 2 ^ 63 := by
  simp only [v6ToHextets_eq_some]
  constructor
  · rintro ⟨hs, ⟨l, hsplit, hlen, hmap⟩ | ⟨l, r, hl, hr, hsplit, hle, hleft, hright, -⟩⟩
    · have hh : Halves t [l] := halves_iff.mpr ⟨hsplit, by simp⟩
      refine ⟨[l], hh, by simpa [Counted] using hlen, fun half hhalf g hg => ?_⟩
      refine (hh.hexToInt_isSome ht hhalf hg).mp ?_
      obtain rfl := List.mem_singleton.mp hhalf
      exact exists_mapM_iff.mp ⟨_, hmap⟩ g hg
    · have hh : Halves t [l, r] := halves_iff.mpr ⟨hsplit, by simp⟩
      refine ⟨[l, r], hh, by simpa [Counted] using hle, fun half hhalf g hg => ?_⟩
      refine (hh.hexToInt_isSome ht hhalf hg).mp ?_
      rcases List.mem_pair.mp hhalf with rfl | rfl
      · exact exists_mapM_iff.mp ⟨_, hleft⟩ g hg
      · exact exists_mapM_iff.mp ⟨_, hright⟩ g hg
  · rintro ⟨halves, hh, hcount, hsmall⟩
    have hmap : ∀ half ∈ halves, ∃ hs, (groups half).mapM hexToInt = some hs := fun half hhalf =>
      exists_mapM_iff.mpr fun g hg => (hh.hexToInt_isSome ht hhalf hg).mpr (hsmall half hhalf g hg)
    obtain ⟨hsplit, -⟩ := halves_iff.mp hh
    cases hh with
    | one hno =>
      obtain ⟨hs, hmap⟩ := hmap t (by simp)
      exact ⟨hs, Or.inl ⟨t, hsplit, by simpa [Counted] using hcount, hmap⟩⟩
    | @two l r _ _ =>
      obtain ⟨hl, hleft⟩ := hmap l (by simp)
      obtain ⟨hr, hright⟩ := hmap r (by simp)
      exact ⟨_, Or.inr ⟨l, r, hl, hr, hsplit, by simpa [Counted] using hcount, hleft, hright, rfl⟩⟩

/-! ## What is an address -/

section address

variable {t : Text} {gs : List Text}

/-- Without a colon at an end and without two in one place, no group is empty. -/
theorem joined_groups (hno : ¬ [':', ':'] <:+: t) (hstray : ¬ StrayColon t) :
    joined ':' (groups t) = t := by
  have hjoin : joined ':' (t.splitOn ':') = t := List.intercalate_splitOn ':'
  by_cases hnil : t = []
  · subst hnil
    rfl
  suffices hpieces : [] ∉ t.splitOn ':' by
    have hgroups : groups t = t.splitOn ':' := by
      refine List.filter_eq_self.mpr fun g hg => ?_
      have hne : g ≠ [] := fun heq => hpieces (heq ▸ hg)
      simpa using hne
    rw [hgroups, hjoin]
  -- an empty piece is at one end, which has a colon then, or between two colons
  intro hmem
  obtain ⟨xs, ys, hsplit⟩ := List.append_of_mem hmem
  rw [hsplit] at hjoin
  by_cases hxs : xs = []
  · subst hxs
    cases ys with
    | nil => exact hnil (by simpa [joined] using hjoin.symm)
    | cons y ys =>
      rw [List.nil_append, joined_cons_cons] at hjoin
      exact hstray (Or.inl (by rw [← hjoin]; rfl))
  · rw [joined_append hxs (List.cons_ne_nil _ _)] at hjoin
    cases ys with
    | nil => exact hstray (Or.inr (by rw [← hjoin]; simp [joined]))
    | cons y ys =>
      rw [joined_cons_cons] at hjoin
      exact hno ⟨joined ':' xs, joined ':' (y :: ys), by simpa using hjoin⟩

theorem not_strayColon_joined (h : ∀ g ∈ gs, g ≠ [] ∧ ':' ∉ g) : ¬ StrayColon (joined ':' gs) := by
  rintro (hhead | hlast)
  · cases gs with
    | nil => simp [joined] at hhead
    | cons g gs =>
      obtain ⟨⟨hne, hcolon⟩, -⟩ := List.forall_mem_cons.mp h
      have hfirst : ∃ rest, joined ':' (g :: gs) = g ++ rest := by
        cases gs with
        | nil => exact ⟨[], by simp [joined]⟩
        | cons g' gs => exact ⟨_, joined_cons_cons ':' g g' gs⟩
      obtain ⟨rest, hrest⟩ := hfirst
      rw [hrest, List.head?_append_of_ne_nil _ hne] at hhead
      exact hcolon (List.mem_of_mem_head? hhead)
  · induction gs using List.reverseRecOn with
    | nil => simp [joined] at hlast
    | append_singleton gs g _ =>
      obtain ⟨hne, hcolon⟩ := h g (by simp)
      have hend : ∃ front, joined ':' (gs ++ [g]) = front ++ g := by
        by_cases hgs : gs = []
        · exact ⟨[], by simp [hgs, joined]⟩
        · refine ⟨joined ':' gs ++ [':'], ?_⟩
          rw [joined_append hgs (List.cons_ne_nil _ _)]
          simp [joined]
      obtain ⟨front, hfront⟩ := hend
      rw [hfront, List.getLast?_append_of_ne_nil _ hne] at hlast
      exact hcolon (List.mem_of_mem_getLast? hlast)

theorem forall_length_le {hs : List ℕ} (h : List.Forall₂ HexGroup gs hs) :
    ∀ g ∈ gs, g.length ≤ 4 := by
  induction h with
  | nil => simp
  | cons hg _ ih => exact List.forall_mem_cons.mpr ⟨hg.length_le, ih⟩

/-- An address has halves whose groups are counted rightly, with nothing between or around them
    but the colons that separate them. -/
theorem halves_of_hextetLiteral {hs : List ℕ} (h : HextetLiteral t hs) :
    ∃ halves, Halves t halves ∧ Counted halves ∧
      ∀ half ∈ halves, ¬ StrayColon half ∧ ∀ g ∈ groups half, g.length ≤ 4 := by
  cases h with
  | @full gs hs hgroups hlen =>
    have hgs := forall_hexGroup hgroups
    have hsplit : splitPair ':' (joined ':' gs) = [joined ':' gs] := by
      simpa [splitPair] using splitPair_joined hgs []
    refine ⟨_, halves_iff.mpr ⟨hsplit, by simp⟩, ?_, ?_⟩
    · simpa [Counted, groups_joined hgs] using hgroups.length_eq.trans hlen
    · simp only [List.forall_mem_singleton, groups_joined hgs]
      exact ⟨not_strayColon_joined hgs, forall_length_le hgroups⟩
  | @compressed ls rs hl hr hleft hright hlen =>
    have hls := forall_hexGroup hleft
    have hrs := forall_hexGroup hright
    refine ⟨_, halves_iff.mpr ⟨splitPair_compressed hls hrs, by simp⟩, ?_, ?_⟩
    · have hl := hleft.length_eq
      have hr := hright.length_eq
      simpa [Counted, groups_joined hls, groups_joined hrs] using by omega
    · simp only [List.forall_mem_cons, groups_joined hls, groups_joined hrs]
      exact ⟨⟨not_strayColon_joined hls, forall_length_le hleft⟩,
        ⟨not_strayColon_joined hrs, forall_length_le hright⟩, List.forall_mem_nil _⟩

/-- And such halves make an address. -/
theorem hextetLiteral_of_halves {halves : List Text} (ht : Hexadecimal t) (hh : Halves t halves)
    (hcount : Counted halves)
    (hhalves : ∀ half ∈ halves, ¬ StrayColon half ∧ ∀ g ∈ groups half, g.length ≤ 4) :
    ∃ hs, HextetLiteral t hs := by
  have hgroups : ∀ half ∈ halves,
      List.Forall₂ HexGroup (groups half) ((groups half).map hexNumber) := by
    intro half hhalf
    rw [List.forall₂_map_right_iff, List.forall₂_same]
    exact fun g hg => hh.hexGroup ht hhalf hg ((hhalves half hhalf).2 g hg)
  cases hh with
  | one hno =>
    have hlit := HextetLiteral.full (hgroups t (by simp)) (by simpa [Counted] using hcount)
    rw [joined_groups hno (hhalves t (by simp)).1] at hlit
    exact ⟨_, hlit⟩
  | @two l r hl hr =>
    have hlit := HextetLiteral.compressed (hgroups l (by simp)) (hgroups r (by simp))
      (by simpa [Counted] using hcount)
    have hleft : ¬ [':', ':'] <:+: l := fun hpair =>
      hl (hpair.trans (List.prefix_append l [':']).isInfix)
    rw [joined_groups hleft (hhalves l (by simp)).1, joined_groups hr (hhalves r (by simp)).1] at hlit
    exact ⟨_, hlit⟩

theorem exists_hextetLiteral_iff (ht : Hexadecimal t) :
    (∃ hs, HextetLiteral t hs) ↔ ∃ halves, Halves t halves ∧ Counted halves ∧
      ∀ half ∈ halves, ¬ StrayColon half ∧ ∀ g ∈ groups half, g.length ≤ 4 :=
  ⟨fun ⟨_, h⟩ => halves_of_hextetLiteral h,
    fun ⟨_, hh, hcount, hhalves⟩ => hextetLiteral_of_halves ht hh hcount hhalves⟩

end address

/-! ## Where the two agree -/

/-- A text is accepted if and only if it is an address, and the hextets that are read fit. -/
def Judged (t : Text) : Prop :=
  ((∃ hs, v6ToHextets t = some hs) ↔ ∃ hs, HextetLiteral t hs) ∧
    ∀ hs, v6ToHextets t = some hs → ∀ h ∈ hs, h ≤ 65535

/-- The counts are right and no number overflows, but there is a colon too many or a group of
    more than four digits. -/
def Overlooked (t : Text) : Prop :=
  ∃ halves, Halves t halves ∧ Counted halves ∧
    (∀ half ∈ halves, ∀ g ∈ groups half, hexNumber g < 2 ^ 63) ∧
    ∃ half ∈ halves, StrayColon half ∨ ∃ g ∈ groups half, 4 < g.length

theorem judged_of_not_overlooked {t : Text} (ht : Hexadecimal t) (h : ¬ Overlooked t) :
    Judged t := by
  have hliteral : ∀ {hs}, v6ToHextets t = some hs → HextetLiteral t hs := by
    intro hs hread
    obtain ⟨halves, hh, hcount, hsmall⟩ := (exists_v6ToHextets_iff ht).mp ⟨hs, hread⟩
    obtain ⟨hs', hlit⟩ : ∃ hs', HextetLiteral t hs' := by
      refine (exists_hextetLiteral_iff ht).mpr ⟨halves, hh, hcount, fun half hhalf => ⟨?_, ?_⟩⟩
      · exact fun hstray => h ⟨halves, hh, hcount, hsmall, half, hhalf, Or.inl hstray⟩
      · intro g hg
        by_contra hlong
        exact h ⟨halves, hh, hcount, hsmall, half, hhalf, Or.inr ⟨g, hg, Nat.lt_of_not_le hlong⟩⟩
    rw [v6ToHextets_literal hlit] at hread
    exact Option.some.inj hread ▸ hlit
  refine ⟨⟨fun ⟨hs, hread⟩ => ⟨hs, hliteral hread⟩, fun ⟨hs, hlit⟩ => ⟨hs, v6ToHextets_literal hlit⟩⟩,
    fun hs hread x hx => ?_⟩
  exact Nat.le_of_lt_succ ((hliteral hread).lt x hx)

theorem not_judged_of_overlooked {t : Text} (ht : Hexadecimal t) (h : Overlooked t) :
    ¬ Judged t := by
  obtain ⟨halves, hh, hcount, hsmall, half, hhalf, hbad⟩ := h
  intro hjudged
  have hread := (exists_v6ToHextets_iff ht).mpr ⟨halves, hh, hcount, hsmall⟩
  obtain ⟨halves', hh', -, hgood⟩ := (exists_hextetLiteral_iff ht).mp (hjudged.1.mp hread)
  obtain rfl := hh.unique hh'
  obtain ⟨hstray, hshort⟩ := hgood half hhalf
  rcases hbad with hbad | ⟨g, hg, hlong⟩
  · exact hstray hbad
  · exact absurd (hshort g hg) (Nat.not_le_of_lt hlong)

/-- The texts of hexadecimal digits and colons that are judged rightly are all but those that
    the counting overlooks. -/
theorem judged_iff {t : Text} (ht : Hexadecimal t) : Judged t ↔ ¬ Overlooked t :=
  ⟨fun hjudged h => not_judged_of_overlooked ht h hjudged, judged_of_not_overlooked ht⟩

theorem judged_iff_colons : Judged "::1".toList ∧ ¬ Judged ":::1".toList := by
  rw [judged_iff (by decide +kernel), judged_iff (by decide +kernel), not_not]
  constructor
  · rintro ⟨halves, hh, -, -, hbad⟩
    obtain rfl : ["".toList, "1".toList] = halves := (halves_iff.mp hh).1
    exact absurd hbad (by decide)
  · exact ⟨["".toList, ":1".toList], halves_iff.mpr (by decide +kernel), by decide +kernel,
      by decide +kernel, by decide +kernel⟩

/-- A colon at the end, a third colon, and a group of five digits. -/
theorem accepted_no_literal :
    (Hexadecimal "1:2:3:4:5:6:7:8:".toList ∧ ¬ Judged "1:2:3:4:5:6:7:8:".toList) ∧
      (Hexadecimal ":::1".toList ∧ ¬ Judged ":::1".toList) ∧
      (Hexadecimal "12345::".toList ∧ ¬ Judged "12345::".toList) := by
  have hcolon : Hexadecimal "1:2:3:4:5:6:7:8:".toList := by decide +kernel
  have hthree : Hexadecimal ":::1".toList := by decide +kernel
  have hlong : Hexadecimal "12345::".toList := by decide +kernel
  refine ⟨⟨hcolon, not_judged_of_overlooked hcolon ?_⟩,
    ⟨hthree, not_judged_of_overlooked hthree ?_⟩, ⟨hlong, not_judged_of_overlooked hlong ?_⟩⟩
  · exact ⟨["1:2:3:4:5:6:7:8:".toList], halves_iff.mpr (by decide +kernel), by decide +kernel,
      by decide +kernel, by decide +kernel⟩
  · exact ⟨["".toList, ":1".toList], halves_iff.mpr (by decide +kernel), by decide +kernel,
      by decide +kernel, by decide +kernel⟩
  · exact ⟨["12345".toList, "".toList], halves_iff.mpr (by decide +kernel), by decide +kernel,
      by decide +kernel, by decide +kernel⟩

end Kubenyx.Net
