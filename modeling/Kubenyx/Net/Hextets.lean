import Kubenyx.Common.Rfc5952
import Kubenyx.Net.Cidr

/-!
# IPv6 text

What `v6ToHextets` reads and what `hextetsToV6` writes.

* `v6ToHextets_literal`: an address in its notation is read as the hextets it denotes.
* `hextetsToV6_canonical`: the text that is written is the canonical one, and it is read back.
-/

namespace Kubenyx.Net

open Kubenyx.Common

/-! ## Reading -/

theorem lookup_digits {c : Char} {d : ℕ} (h : IpAddr.toDigit 16 c = some d) :
    digits.lookup c = some d := by
  have hall : ∀ n : Fin 128, ∀ d ∈ IpAddr.toDigit 16 (Char.ofNat n),
      digits.lookup (Char.ofNat n) = some d := by
    decide
  have := hall ⟨c.toNat, lt_of_toDigit h⟩ d
  simp only [Char.ofNat_toNat] at this
  exact this h

/-- The number of hexadecimal digits, if it fits. -/
theorem foldlM_digits {s : Text} {ds : List ℕ}
    (h : List.Forall₂ (fun c d => IpAddr.toDigit 16 c = some d) s ds) {acc : ℕ} (hacc : acc < 2 ^ 63) :
    s.foldlM (fun acc c => (digits.lookup c).bind fun d => nat64 (acc * 16 + d)) acc =
      nat64 (16 ^ ds.length * acc + ofGroups 16 ds) := by
  induction h generalizing acc with
  | nil => simpa using (nat64_of_lt hacc).symm
  | @cons c d s ds hc _ ih =>
    have hvalue : 16 ^ (d :: ds).length * acc + ofGroups 16 (d :: ds) =
        16 ^ ds.length * (acc * 16 + d) + ofGroups 16 ds := by
      rw [ofGroups_cons, List.length_cons]
      ring
    rw [List.foldlM_cons, lookup_digits hc, hvalue]
    show (nat64 (acc * 16 + d)).bind _ = _
    by_cases hfits : acc * 16 + d < 2 ^ 63
    · rw [nat64_of_lt hfits, Option.bind_some, ih hfits]
    · -- what does not fit any more does not fit with further digits either
      have hle : acc * 16 + d ≤ 16 ^ ds.length * (acc * 16 + d) :=
        Nat.le_mul_of_pos_left _ (by positivity)
      unfold nat64
      rw [if_neg hfits, if_neg (by omega)]
      rfl

theorem hexToInt_digits {s : Text} {ds : List ℕ}
    (h : List.Forall₂ (fun c d => IpAddr.toDigit 16 c = some d) s ds) :
    hexToInt s = nat64 (ofGroups 16 ds) := by
  unfold hexToInt
  rw [foldlM_digits h (by decide), Nat.mul_zero, Nat.zero_add]

theorem hexToInt_hexGroup {g : Text} {n : ℕ} (h : HexGroup g n) : hexToInt g = some n := by
  have hlt : n < 2 ^ 63 := h.lt.trans (by decide)
  obtain ⟨ds, hds, rfl⟩ := h.digits
  rw [hexToInt_digits hds, nat64_of_lt hlt]

theorem not_mem_hexGroup {g : Text} {n : ℕ} (h : HexGroup g n) {c : Char}
    (hc : IpAddr.toDigit 16 c = none) : c ∉ g := by
  obtain ⟨ds, hds, -⟩ := h.digits
  intro hmem
  have := toDigit_of_mem hds hmem
  rw [hc] at this
  exact absurd this (by decide)

section literal

variable {gs : List Text} {hs : List ℕ}

theorem mapM_hexToInt_eq_some :
    gs.mapM hexToInt = some hs ↔ List.Forall₂ (fun g h => hexToInt g = some h) gs hs := by
  induction gs generalizing hs with
  | nil =>
    rw [List.mapM_nil, List.forall₂_nil_left_iff]
    exact Option.some_inj.trans eq_comm
  | cons g gs ih =>
    rw [List.mapM_cons, List.forall₂_cons_left_iff]
    simp only [Option.bind_eq_bind, Option.bind_eq_some_iff, Option.pure_def, Option.some_inj, ih]
    constructor
    · rintro ⟨h, hg, hs, hgs, rfl⟩
      exact ⟨h, hs, hg, hgs, rfl⟩
    · rintro ⟨h, hs, hg, hgs, rfl⟩
      exact ⟨h, hg, hs, hgs, rfl⟩

theorem mapM_hexToInt (h : List.Forall₂ HexGroup gs hs) : gs.mapM hexToInt = some hs :=
  mapM_hexToInt_eq_some.mpr (h.imp fun _ _ => hexToInt_hexGroup)

theorem forall_hexGroup (h : List.Forall₂ HexGroup gs hs) : ∀ g ∈ gs, g ≠ [] ∧ ':' ∉ g := by
  induction h with
  | nil => simp
  | cons hg _ ih =>
    exact List.forall_mem_cons.mpr ⟨⟨hg.ne_nil, not_mem_hexGroup hg (by decide)⟩, ih⟩

theorem groups_joined (h : ∀ g ∈ gs, g ≠ [] ∧ ':' ∉ g) : groups (joined ':' gs) = gs := by
  by_cases hnil : gs = []
  · subst hnil
    rfl
  · unfold groups joined
    rw [List.splitOn_intercalate ':' (fun g hg => (h g hg).2) hnil, List.filter_eq_self]
    intro g hg
    simpa using (h g hg).1

theorem splitPair_ne_nil (sep : Char) (t : Text) : splitPair sep t ≠ [] := by
  fun_induction splitPair sep t with
  | case1 => exact List.cons_ne_nil _ _
  | case2 a b t hab ih =>
    obtain ⟨h, hs, hsplit⟩ := List.exists_cons_of_ne_nil ih
    rw [hsplit]
    exact List.cons_ne_nil _ _
  | case3 => exact List.cons_ne_nil _ _

theorem splitPair_cons_of_ne {c a : Char} (h : a ≠ c) (t : Text) :
    splitPair c (a :: t) = (splitPair c t).modifyHead (a :: ·) := by
  cases t with
  | nil => rfl
  | cons b t => rw [splitPair, if_neg (fun hab => h hab.1)]

theorem splitPair_append {c : Char} {g : Text} (h : c ∉ g) (t : Text) :
    splitPair c (g ++ t) = (splitPair c t).modifyHead (g ++ ·) := by
  induction g with
  | nil => exact (congrFun List.modifyHead_id _).symm
  | cons a g ih =>
    rw [List.mem_cons, not_or] at h
    rw [List.cons_append, splitPair_cons_of_ne (Ne.symm h.1), ih h.2, List.modifyHead_modifyHead]
    rfl

/-- Single separators between groups are no place to split. -/
theorem splitPair_joined {c : Char} (h : ∀ g ∈ gs, g ≠ [] ∧ c ∉ g) (t : Text) :
    splitPair c (joined c gs ++ t) = (splitPair c t).modifyHead (joined c gs ++ ·) := by
  induction gs with
  | nil => exact (congrFun List.modifyHead_id _).symm
  | cons g gs ih =>
    obtain ⟨hg, hgs⟩ := List.forall_mem_cons.mp h
    cases gs with
    | nil => simpa [joined] using splitPair_append hg.2 t
    | cons g' gs =>
      have hjoin : ∀ u, joined c (g :: g' :: gs) ++ u = g ++ c :: (joined c (g' :: gs) ++ u) := by
        simp [joined_cons_cons]
      obtain ⟨⟨hne, hnot⟩, -⟩ := List.forall_mem_cons.mp hgs
      obtain ⟨a, g'', rfl⟩ := List.exists_cons_of_ne_nil hne
      have ha : a ≠ c := fun hac => hnot (hac ▸ List.mem_cons_self)
      have hhead : ∀ u, ∃ v, joined c ((a :: g'') :: gs) ++ u = a :: v := by
        intro u
        cases gs <;> simp [joined]
      obtain ⟨v, hv⟩ := hhead t
      rw [hjoin, splitPair_append hg.2, hv, splitPair, if_neg (fun hab => ha hab.2), ← hv, ih hgs,
        List.modifyHead_modifyHead, List.modifyHead_modifyHead]
      congr 1
      funext u
      exact (hjoin u).symm

theorem splitPair_compressed {c : Char} {ls rs : List Text} (hls : ∀ g ∈ ls, g ≠ [] ∧ c ∉ g)
    (hrs : ∀ g ∈ rs, g ≠ [] ∧ c ∉ g) :
    splitPair c (joined c ls ++ c :: c :: joined c rs) = [joined c ls, joined c rs] := by
  have hright : splitPair c (joined c rs) = [joined c rs] := by
    simpa [splitPair] using splitPair_joined hrs []
  rw [splitPair_joined hls, splitPair, if_pos ⟨rfl, rfl⟩, hright, List.modifyHead_cons,
    List.append_nil]

/-- What is read: eight groups, or two halves with seven groups at most. -/
theorem v6ToHextets_eq_some {t : Text} : v6ToHextets t = some hs ↔
    (∃ l, splitPair ':' t = [l] ∧ (groups l).length = 8 ∧ (groups l).mapM hexToInt = some hs) ∨
      ∃ l r hl hr, splitPair ':' t = [l, r] ∧ (groups l).length + (groups r).length ≤ 7 ∧
        (groups l).mapM hexToInt = some hl ∧ (groups r).mapM hexToInt = some hr ∧
        hs = hl ++ List.replicate (8 - hl.length - hr.length) 0 ++ hr := by
  unfold v6ToHextets
  match hsplit : splitPair ':' t with
  | [] => exact absurd hsplit (splitPair_ne_nil ':' t)
  | [l] => simp
  | l :: r :: x :: rest => simp
  | [l, r] =>
    have hfill : (1 : ℤ) ≤ 8 - (groups l).length - (groups r).length ↔
        (groups l).length + (groups r).length ≤ 7 := by omega
    simp only [List.length_cons, List.length_nil, List.headD_cons, List.getD_cons_succ,
      List.getD_cons_zero, if_true, le_refl, true_and, hfill, Option.ite_none_right_eq_some,
      Option.bind_eq_bind, Option.bind_eq_some_iff, Option.pure_def, Option.some_inj, List.cons.injEq,
      and_true, reduceCtorEq, and_false, false_and, exists_false, false_or]
    constructor
    · rintro ⟨hle, hl, hleft, hr, hright, rfl⟩
      have hll := (mapM_hexToInt_eq_some.mp hleft).length_eq
      have hlr := (mapM_hexToInt_eq_some.mp hright).length_eq
      refine ⟨l, r, hl, hr, ⟨rfl, rfl⟩, hle, hleft, hright, ?_⟩
      rw [show ((8 : ℤ) - (groups l).length - (groups r).length).toNat =
        8 - hl.length - hr.length by omega]
    · rintro ⟨l', r', hl, hr, ⟨rfl, rfl⟩, hle, hleft, hright, rfl⟩
      have hll := (mapM_hexToInt_eq_some.mp hleft).length_eq
      have hlr := (mapM_hexToInt_eq_some.mp hright).length_eq
      refine ⟨hle, hl, hleft, hr, hright, ?_⟩
      rw [show ((8 : ℤ) - (groups l).length - (groups r).length).toNat =
        8 - hl.length - hr.length by omega]

theorem v6ToHextets_literal {t : Text} (h : HextetLiteral t hs) : v6ToHextets t = some hs := by
  rw [v6ToHextets_eq_some]
  cases h with
  | @full gs hs hgroups hlen =>
    have hgs := forall_hexGroup hgroups
    refine Or.inl ⟨joined ':' gs, by simpa [splitPair] using splitPair_joined hgs [], ?_⟩
    rw [groups_joined hgs]
    exact ⟨hgroups.length_eq.trans hlen, mapM_hexToInt hgroups⟩
  | @compressed ls rs hl hr hleft hright hlen =>
    have hls := forall_hexGroup hleft
    have hrs := forall_hexGroup hright
    refine Or.inr ⟨joined ':' ls, joined ':' rs, hl, hr, splitPair_compressed hls hrs, ?_⟩
    rw [groups_joined hls, groups_joined hrs, hleft.length_eq, hright.length_eq]
    exact ⟨hlen, mapM_hexToInt hleft, mapM_hexToInt hright, rfl⟩

theorem length_of_v6ToHextets {t : Text} (h : v6ToHextets t = some hs) : hs.length = 8 := by
  obtain ⟨l, -, hlen, hmap⟩ | ⟨l, r, hl, hr, -, hle, hleft, hright, rfl⟩ := v6ToHextets_eq_some.mp h
  · rw [← hlen, (mapM_hexToInt_eq_some.mp hmap).length_eq]
  · have hll := (mapM_hexToInt_eq_some.mp hleft).length_eq
    have hlr := (mapM_hexToInt_eq_some.mp hright).length_eq
    simp only [List.length_append, List.length_replicate]
    omega

end literal

/-! ## Writing -/

/-- The zeros at the front are the longest run that begins there. -/
theorem le_zeroRun_iff {hs : List ℕ} {len : ℕ} :
    len ≤ zeroRun hs ↔ ∀ i < len, hs[i]? = some 0 := by
  induction hs generalizing len with
  | nil =>
    rw [zeroRun, Nat.le_zero]
    refine ⟨fun h i hi => by omega, fun h => ?_⟩
    by_contra hlen
    simpa using h 0 (by omega)
  | cons h hs ih =>
    unfold zeroRun
    split_ifs with hh
    · refine ⟨fun hle i hi => by omega, fun hrun => ?_⟩
      by_contra hlen
      exact hh (by simpa using hrun 0 (by omega))
    · obtain rfl : h = 0 := not_not.mp hh
      constructor
      · intro hle i hi
        cases i with
        | zero => rfl
        | succ i => exact (@ih (len - 1)).mp (by omega) i (by omega)
      · intro hrun
        have := (@ih (len - 1)).mpr fun i hi => hrun (i + 1) (by omega)
        omega

theorem le_zeroRunAt_iff {hs : List ℕ} {start len : ℕ} :
    len ≤ zeroRunAt hs start ↔ ZeroRun hs start len := by
  unfold zeroRunAt ZeroRun
  rw [le_zeroRun_iff]
  simp only [List.getElem?_drop]

/-- The fold keeps the first of the longest runs so far, or its initial value while there is
    none of two zeros. -/
theorem foldl_better (hs : List ℕ) (n : ℕ) :
    ((List.range n).foldl (better hs) ⟨-1, 1⟩ = ⟨-1, 1⟩ ∧ ∀ j < n, zeroRunAt hs j ≤ 1) ∨
      ∃ i : ℕ, (List.range n).foldl (better hs) ⟨-1, 1⟩ = ⟨i, zeroRunAt hs i⟩ ∧
        2 ≤ zeroRunAt hs i ∧ (∀ j < n, zeroRunAt hs j ≤ zeroRunAt hs i) ∧
        ∀ j < i, zeroRunAt hs j < zeroRunAt hs i := by
  induction n with
  | zero => exact Or.inl ⟨rfl, by simp⟩
  | succ n ih =>
    rw [List.range_succ, List.foldl_append, List.foldl_cons, List.foldl_nil]
    simp only [Nat.forall_lt_succ_right]
    obtain ⟨hacc, hshort⟩ | ⟨i, hacc, htwo, hlongest, hleftmost⟩ := ih
    · rw [hacc]
      unfold better
      dsimp only
      split_ifs with hlt
      · exact Or.inr ⟨n, rfl, hlt, ⟨fun j hj => (hshort j hj).trans hlt.le, le_rfl⟩,
          fun j hj => (hshort j hj).trans_lt hlt⟩
      · exact Or.inl ⟨rfl, hshort, Nat.le_of_not_lt hlt⟩
    · rw [hacc]
      unfold better
      dsimp only
      split_ifs with hlt
      · exact Or.inr ⟨n, rfl, htwo.trans hlt.le, ⟨fun j hj => (hlongest j hj).trans hlt.le, le_rfl⟩,
          fun j hj => (hlongest j hj).trans_lt hlt⟩
      · exact Or.inr ⟨i, rfl, htwo, ⟨hlongest, Nat.le_of_not_lt hlt⟩, hleftmost⟩

theorem best_spec {hs : List ℕ} (hlen : hs.length = 8) :
    (best hs = ⟨-1, 1⟩ ∧ ∀ start len, ZeroRun hs start len → len < 2) ∨
      ∃ start len : ℕ, best hs = ⟨start, len⟩ ∧ 2 ≤ len ∧ LongestRun hs start len := by
  have hend : ∀ {j}, 8 ≤ j → zeroRunAt hs j = 0 := by
    intro j hj
    unfold zeroRunAt
    rw [List.drop_eq_nil_of_le (hlen.trans_le hj)]
    rfl
  obtain ⟨hbest, hshort⟩ | ⟨i, hbest, htwo, hlongest, hleftmost⟩ := foldl_better hs 8
  · refine Or.inl ⟨hbest, fun start len hrun => ?_⟩
    have hle := le_zeroRunAt_iff.mpr hrun
    rcases Nat.lt_or_ge start 8 with hstart | hstart
    · have := hshort start hstart
      omega
    · have := hend hstart
      omega
  · refine Or.inr ⟨i, zeroRunAt hs i, hbest, htwo, le_zeroRunAt_iff.mp le_rfl, ?_, ?_⟩
    · intro start len hrun
      have hle := le_zeroRunAt_iff.mpr hrun
      rcases Nat.lt_or_ge start 8 with hstart | hstart
      · exact hle.trans (hlongest start hstart)
      · have := hend hstart
        omega
    · intro start hrun
      have hle := le_zeroRunAt_iff.mpr hrun
      by_contra hlt
      have := hleftmost start (by omega)
      omega

theorem rfc5952_hextetsToV6 {hs : List ℕ} (hlen : hs.length = 8) (hlt : ∀ h ∈ hs, h < 65536) :
    Rfc5952 hs (hextetsToV6 hs) := by
  unfold hextetsToV6
  dsimp only
  obtain ⟨hbest, hshort⟩ | ⟨start, len, hbest, htwo, hrun⟩ := best_spec hlen
  · rw [hbest, if_pos (by decide)]
    exact .plain (forall₂_map_toDigits hlt) hshort
  · rw [hbest, if_neg (by dsimp only; omega)]
    dsimp only
    have hafter : (hs.drop ((start : ℤ) + len).toNat).take (8 - (start : ℤ) - len).toNat =
        hs.drop (start + len) := by
      have := hrun.run.le_length (by omega)
      rw [show ((start : ℤ) + len).toNat = start + len by omega]
      refine List.take_of_length_le ?_
      rw [List.length_drop]
      omega
    rw [hafter, Int.toNat_natCast, List.append_assoc]
    exact .compressed hrun htwo
      (forall₂_map_toDigits fun h hh => hlt h (List.mem_of_mem_take hh))
      (forall₂_map_toDigits fun h hh => hlt h (List.mem_of_mem_drop hh))

theorem hextetLiteral_hextetsToV6 {hs : List ℕ} (hlen : hs.length = 8)
    (hlt : ∀ h ∈ hs, h < 65536) : HextetLiteral (hextetsToV6 hs) hs :=
  (rfc5952_hextetsToV6 hlen hlt).literal hlen

/-- What is written is read back, and it is the canonical text and the only one. -/
theorem hextetsToV6_canonical {hs : List ℕ} (hlen : hs.length = 8) (hle : ∀ h ∈ hs, h ≤ 65535) :
    v6ToHextets (hextetsToV6 hs) = some hs ∧ ∀ t, Rfc5952 hs t ↔ t = hextetsToV6 hs := by
  have hlt : ∀ h ∈ hs, h < 65536 := fun h hh => Nat.lt_succ_of_le (hle h hh)
  have hcanonical := rfc5952_hextetsToV6 hlen hlt
  refine ⟨v6ToHextets_literal (hcanonical.literal hlen), fun t => ⟨fun ht => ?_, ?_⟩⟩
  · exact ht.unique hcanonical
  · rintro rfl
    exact hcanonical

/-- Of two runs of the same length the left one is compressed, and a single zero never is. -/
theorem hextetsToV6_canonical_tie :
    v6ToHextets (hextetsToV6 [0, 171, 0, 0, 3, 0, 0, 65535]) =
        some [0, 171, 0, 0, 3, 0, 0, 65535] ∧
      Rfc5952 [0, 171, 0, 0, 3, 0, 0, 65535] "0:ab::3:0:0:ffff".toList := by
  have h := @hextetsToV6_canonical [0, 171, 0, 0, 3, 0, 0, 65535] (by decide) (by decide)
  exact ⟨h.1, (h.2 _).mpr (by decide +kernel)⟩

end Kubenyx.Net
