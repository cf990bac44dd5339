import Kubenyx.Common.Encoding

/-!
# Functions of Rust's `str`

The functions of `str` that the programs use, on texts: trimming, the lines of a text, and
cutting a text at a known start or at a character.

* `lines_cons`: a line that ends in a newline comes off the front.
* `lines_flatMap_newline`: lines that were written one after another are read back.
* `prefix_flatMap`: lines that are cut off end in one of them.
* `trim_eq_self`: trimming leaves alone what has no white space at its ends.
-/

namespace Kubenyx.Common

/-- `char::is_whitespace`. -/
def isWhitespace (c : Char) : Bool :=
  (9 ≤ c.toNat ∧ c.toNat ≤ 13) ∨ (0x2000 ≤ c.toNat ∧ c.toNat ≤ 0x200a) ∨
    c.toNat ∈ [0x20, 0x85, 0xa0, 0x1680, 0x2028, 0x2029, 0x202f, 0x205f, 0x3000]

theorem isWhitespace_of_isDigit {c : Char} (h : c.isDigit = true) : isWhitespace c = false := by
  have hrange : 48 ≤ c.toNat ∧ c.toNat ≤ 57 := Char.isDigit_iff_toNat.mp h
  unfold isWhitespace
  simp only [List.mem_cons, List.not_mem_nil, or_false, decide_eq_false_iff_not, not_or]
  omega

/-- `trim_start`. -/
def trimStart (t : Text) : Text := t.dropWhile isWhitespace

/-- `trim_end`. -/
def trimEnd (t : Text) : Text := t.rdropWhile isWhitespace

/-- `trim`. -/
def trim (t : Text) : Text := trimEnd (t.dropWhile isWhitespace)

/-- A line without the carriage return at its end. -/
def stripCr (t : Text) : Text := if t.getLast? = some '\r' then t.dropLast else t

/-- `lines`: the parts between newlines, without the empty one after a newline at the end. The
    carriage return before a newline is dropped with it. -/
def lines (t : Text) : List Text :=
  let parts := t.splitOn '\n'
  parts.dropLast.map stripCr ++ (parts.getLast?.filter (· ≠ [])).toList

/-- `strip_prefix`. -/
def stripPrefix (p t : Text) : Option Text := if p <+: t then some (t.drop p.length) else none

/-- `split_once`. -/
def splitOnce (c : Char) (t : Text) : Option (Text × Text) :=
  if c ∈ t then some (t.takeWhile (· ≠ c), (t.dropWhile (· ≠ c)).tail) else none

/-- `rsplit_once`. -/
def rsplitOnce (c : Char) (t : Text) : Option (Text × Text) :=
  if c ∈ t then some ((t.rdropWhile (· ≠ c)).dropLast, t.rtakeWhile (· ≠ c)) else none

/-- `split_whitespace`. -/
def splitWhitespace (t : Text) : List Text := (t.splitOnP isWhitespace).filter (· ≠ [])

/-- `eq_ignore_ascii_case`. -/
def eqIgnoreAsciiCase (s t : Text) : Bool := s.map Char.toLower = t.map Char.toLower

/-- `find`, as the text that follows the first occurrence. -/
def findAfter (pat : Text) : Text → Option Text
  | [] => if pat = [] then some [] else none
  | c :: t => if pat <+: (c :: t) then some ((c :: t).drop pat.length) else findAfter pat t

/-- The text has no white space at its ends. -/
structure Trimmed (t : Text) : Prop where
  head : ∀ c ∈ t.head?, isWhitespace c = false
  last : ∀ c ∈ t.getLast?, isWhitespace c = false

theorem trim_eq_self {t : Text} (h : Trimmed t) : trim t = t := by
  have hhead : t.dropWhile isWhitespace = t := by
    cases t with
    | nil => rfl
    | cons c t => exact List.dropWhile_cons_of_neg (by simp [h.head c rfl])
  unfold trim trimEnd
  rw [hhead, List.rdropWhile_eq_self_iff]
  intro hne
  rw [h.last _ (List.getLast_mem_getLast? hne)]
  exact Bool.false_ne_true

/-- White space around a text with none at its ends. -/
theorem trim_append {l t r : Text} (hl : ∀ c ∈ l, isWhitespace c = true) (ht : Trimmed t)
    (hne : t ≠ []) (hr : ∀ c ∈ r, isWhitespace c = true) : trim (l ++ t ++ r) = t := by
  have hhead : (l ++ t ++ r).dropWhile isWhitespace = t ++ r := by
    obtain ⟨c, t, rfl⟩ := List.exists_cons_of_ne_nil hne
    rw [List.append_assoc, List.dropWhile_append_of_pos hl]
    exact List.dropWhile_cons_of_neg (by simp [ht.head c rfl])
  unfold trim trimEnd
  rw [hhead, List.rdropWhile, List.reverse_append,
    List.dropWhile_append_of_pos fun c hc => hr c (List.mem_reverse.mp hc)]
  refine List.rdropWhile_eq_self_iff.mpr fun hne => ?_
  rw [ht.last _ (List.getLast_mem_getLast? hne)]
  exact Bool.false_ne_true

/-- A known start before a text with no white space at its ends. -/
theorem Trimmed.append {p t : Text} (hp : Trimmed p) (hne : p ≠ []) (ht : Trimmed t) :
    Trimmed (p ++ t) where
  head c hc := by
    rw [List.head?_append_of_ne_nil p hne] at hc
    exact hp.head c hc
  last c hc := by
    by_cases hnil : t = []
    · rw [hnil, List.append_nil] at hc
      exact hp.last c hc
    · rw [List.getLast?_append_of_ne_nil p hnil] at hc
      exact ht.last c hc

@[simp] theorem lines_nil : lines [] = [] := rfl

theorem lines_cons {l : Text} (hl : '\n' ∉ l) (t : Text) :
    lines (l ++ '\n' :: t) = stripCr l :: lines t := by
  obtain ⟨p, ps, hps⟩ := List.exists_cons_of_ne_nil (List.splitOn_ne_nil '\n' t)
  unfold lines
  simp only [List.splitOn_append_cons_self_of_not_mem hl, hps, List.dropLast_cons_cons, List.map_cons,
    List.getLast?_cons_cons, List.cons_append]

/-- Lines that were each ended by a newline, and what follows them. -/
theorem lines_flatMap_append {ls : List Text} (h : ∀ l ∈ ls, '\n' ∉ l) (t : Text) :
    lines (ls.flatMap (· ++ ['\n']) ++ t) = ls.map stripCr ++ lines t := by
  induction ls with
  | nil => rfl
  | cons l ls ih =>
    obtain ⟨hl, hls⟩ := List.forall_mem_cons.mp h
    rw [List.flatMap_cons, List.append_assoc, List.append_assoc, List.singleton_append,
      lines_cons hl, ih hls, List.map_cons, List.cons_append]

theorem lines_of_flatMap {ls : List Text} (h : ∀ l ∈ ls, '\n' ∉ l) :
    lines (ls.flatMap (· ++ ['\n'])) = ls.map stripCr := by
  have happend := lines_flatMap_append h []
  rwa [List.append_nil, lines_nil, List.append_nil] at happend

theorem lines_flatMap_newline {ls : List Text} (h : ∀ l ∈ ls, '\n' ∉ l ∧ stripCr l = l) :
    lines (ls.flatMap (· ++ ['\n'])) = ls := by
  rw [lines_of_flatMap fun l hl => (h l hl).1]
  calc ls.map stripCr = ls.map id := List.map_congr_left fun l hl => (h l hl).2
    _ = ls := List.map_id ls

/-- A text without a newline is its only line. -/
theorem lines_of_notMem {t : Text} (h : '\n' ∉ t) : ∀ l ∈ lines t, l = t := by
  intro l hl
  unfold lines at hl
  rw [List.splitOn_eq_singleton h] at hl
  exact (Option.filter_eq_some_iff.mp (Option.mem_toList.mp hl)).1 |> Option.some.inj |>.symm

/-- Lines that are cut off end in one of them. -/
theorem prefix_flatMap {t : Text} {before after : List Text}
    (h : t <+: (before ++ after).flatMap (· ++ ['\n'])) :
    (∃ t', t = before.flatMap (· ++ ['\n']) ++ t' ∧ t' <+: after.flatMap (· ++ ['\n'])) ∨
      ∃ b l c q, before = b ++ l :: c ∧ q <+: l ∧ t = b.flatMap (· ++ ['\n']) ++ q := by
  induction before generalizing t with
  | nil => exact Or.inl ⟨t, rfl, h⟩
  | cons l before ih =>
    rw [List.cons_append, List.flatMap_cons] at h
    have hcut : t <+: l ∨ ∃ t', t = l ++ ['\n'] ++ t' := by
      rcases List.prefix_or_prefix_of_prefix h (List.prefix_append (l ++ ['\n']) _) with hl | hl
      · exact (List.prefix_concat_iff.mp hl).symm.imp_right fun heq =>
          ⟨[], heq.trans (List.append_nil _).symm⟩
      · exact Or.inr (hl.imp fun _ heq => heq.symm)
    rcases hcut with hl | ⟨t, rfl⟩
    · exact Or.inr ⟨[], l, before, t, rfl, hl, rfl⟩
    · rcases ih ((List.prefix_append_right_inj _).mp h) with
        ⟨t', rfl, ht'⟩ | ⟨b, l', c, q, rfl, hq, rfl⟩
      · exact Or.inl ⟨t', by rw [List.flatMap_cons, ← List.append_assoc], ht'⟩
      · exact Or.inr ⟨l :: b, l', c, q, rfl, hq, by rw [List.flatMap_cons, ← List.append_assoc]⟩

/-- Lines that were each ended by a carriage return and a newline. -/
theorem lines_flatMap_crlf {ls : List Text} (h : ∀ l ∈ ls, '\n' ∉ l) :
    lines (ls.flatMap (· ++ ['\r', '\n'])) = ls := by
  have hcr : ls.flatMap (· ++ ['\r', '\n']) = (ls.map (· ++ ['\r'])).flatMap (· ++ ['\n']) := by
    rw [List.flatMap_map]
    exact List.flatMap_congr fun l _ => by simp
  have hstrip : ∀ l ∈ ls, stripCr (l ++ ['\r']) = l := by
    intro l _
    unfold stripCr
    rw [if_pos (by simp), List.dropLast_concat]
  rw [hcr, lines_of_flatMap, List.map_map]
  · calc ls.map (stripCr ∘ (· ++ ['\r'])) = ls.map id := List.map_congr_left hstrip
      _ = ls := List.map_id ls
  · intro l hl
    obtain ⟨u, hu, rfl⟩ := List.mem_map.mp hl
    simpa using h u hu

theorem prefix_stripCr (t : Text) : stripCr t <+: t := by
  unfold stripCr
  split_ifs
  · exact List.dropLast_prefix t
  · exact List.prefix_rfl

theorem stripCr_eq_self {t : Text} (h : ∀ c ∈ t.getLast?, isWhitespace c = false) :
    stripCr t = t := by
  unfold stripCr
  refine if_neg fun hcr => ?_
  exact absurd (h '\r' hcr) (by decide)

/-- Only the end of a line is looked at. -/
theorem stripCr_append {l : Text} (hl : l.getLast? ≠ some '\r') (t : Text) :
    stripCr (l ++ t) = l ++ stripCr t := by
  unfold stripCr
  by_cases ht : t = []
  · rw [ht, List.append_nil, if_neg hl, if_neg (by simp), List.append_nil]
  · rw [List.getLast?_append_of_ne_nil l ht]
    split_ifs with hcr
    · exact List.dropLast_append_of_ne_nil ht
    · rfl

/-- White space ends inside the first text. -/
theorem trimStart_append {l : Text} (hl : trimStart l ≠ []) (t : Text) :
    trimStart (l ++ t) = trimStart l ++ t := by
  unfold trimStart at hl ⊢
  rw [List.dropWhile_append, if_neg]
  rwa [List.isEmpty_iff]

/-- The beginning of a text, trimmed at its start. -/
theorem prefix_trimStart {q t : Text} (h : q <+: t) : trimStart q <+: trimStart t := by
  unfold trimStart
  induction q generalizing t with
  | nil => exact List.nil_prefix
  | cons c q ih =>
    obtain ⟨t, rfl⟩ := h
    rw [List.cons_append, List.dropWhile_cons, List.dropWhile_cons]
    split_ifs
    · exact ih (List.prefix_append q t)
    · exact List.prefix_append (c :: q) t

theorem stripPrefix_append (p t : Text) : stripPrefix p (p ++ t) = some t := by
  unfold stripPrefix
  rw [if_pos (List.prefix_append p t), List.drop_left]

theorem stripPrefix_eq_none {p t : Text} (h : ¬ p <+: t) : stripPrefix p t = none := if_neg h

theorem stripPrefix_eq_some {p t r : Text} : stripPrefix p t = some r ↔ t = p ++ r := by
  constructor
  · intro h
    unfold stripPrefix at h
    split_ifs at h with hpre
    obtain ⟨u, rfl⟩ := hpre
    rw [List.drop_left] at h
    rw [Option.some.inj h]
  · rintro rfl
    exact stripPrefix_append p r

theorem splitOnce_append {c : Char} {a : Text} (ha : c ∉ a) (b : Text) :
    splitOnce c (a ++ c :: b) = some (a, b) := by
  have hne : ∀ x ∈ a, decide (x ≠ c) = true := fun x hx => decide_eq_true fun h => ha (h ▸ hx)
  unfold splitOnce
  rw [if_pos (by simp), List.takeWhile_append_of_pos hne, List.dropWhile_append_of_pos hne]
  simp

/-- A text has the character and is split where it comes first, or does not have it. -/
theorem splitOnce_cases (c : Char) (t : Text) :
    (c ∉ t ∧ splitOnce c t = none) ∨
      ∃ a b, t = a ++ c :: b ∧ c ∉ a ∧ splitOnce c t = some (a, b) := by
  by_cases hc : c ∈ t
  · obtain ⟨a, b, rfl, ha⟩ := List.eq_append_cons_of_mem hc
    exact Or.inr ⟨a, b, rfl, ha, splitOnce_append ha b⟩
  · exact Or.inl ⟨hc, if_neg hc⟩

theorem rsplitOnce_append {c : Char} {b : Text} (hb : c ∉ b) (a : Text) :
    rsplitOnce c (a ++ c :: b) = some (a, b) := by
  have hne : ∀ x ∈ b.reverse, decide (x ≠ c) = true :=
    fun x hx => decide_eq_true fun h => hb (h ▸ List.mem_reverse.mp hx)
  have hrev : (a ++ c :: b).reverse = b.reverse ++ c :: a.reverse := by simp
  unfold rsplitOnce List.rdropWhile List.rtakeWhile
  rw [if_pos (by simp), hrev, List.takeWhile_append_of_pos hne, List.dropWhile_append_of_pos hne]
  simp

/-- A text has the character and is split where it comes last, or does not have it. -/
theorem rsplitOnce_cases (c : Char) (t : Text) :
    (c ∉ t ∧ rsplitOnce c t = none) ∨
      ∃ a b, t = a ++ c :: b ∧ c ∉ b ∧ rsplitOnce c t = some (a, b) := by
  by_cases hc : c ∈ t
  · obtain ⟨b, a, hrev, hb⟩ := List.eq_append_cons_of_mem (List.mem_reverse.mpr hc)
    have ht : t = a.reverse ++ c :: b.reverse := by
      rw [← List.reverse_reverse t, hrev]
      simp
    have hb' : c ∉ b.reverse := fun h => hb (List.mem_reverse.mp h)
    subst ht
    exact Or.inr ⟨a.reverse, b.reverse, rfl, hb', rsplitOnce_append hb' _⟩
  · exact Or.inl ⟨hc, if_neg hc⟩

/-- The first word. -/
theorem splitWhitespace_cons {w : Text} (hne : w ≠ []) (hw : ∀ x ∈ w, isWhitespace x = false)
    {c : Char} (hc : isWhitespace c = true) (t : Text) :
    splitWhitespace (w ++ c :: t) = w :: splitWhitespace t := by
  unfold splitWhitespace
  rw [List.splitOnP_append_cons_of_forall_mem hw c hc, List.filter_cons_of_pos (by simpa using hne)]

section find

variable {c d : Char} {p t : Text}

theorem findAfter_cons_of_ne (h : c ≠ d) : findAfter (c :: p) (d :: t) = findAfter (c :: p) t := by
  rw [findAfter, if_neg]
  intro hpre
  exact h (List.cons_prefix_cons.mp hpre).1

/-- What does not have the first character of the pattern is skipped. -/
theorem findAfter_append {a : Text} (h : c ∉ a) :
    findAfter (c :: p) (a ++ t) = findAfter (c :: p) t := by
  induction a with
  | nil => rfl
  | cons d a ih =>
    rw [List.mem_cons, not_or] at h
    rw [List.cons_append, findAfter_cons_of_ne h.1, ih h.2]

/-- So is the first character without the second. -/
theorem findAfter_cons_cons_of_ne {x y : Char} (h : x ≠ y) :
    findAfter (c :: x :: p) (c :: y :: t) = findAfter (c :: x :: p) (y :: t) := by
  rw [findAfter, if_neg]
  intro hpre
  exact h (List.cons_prefix_cons.mp (List.cons_prefix_cons.mp hpre).2).1

theorem findAfter_append_self (hp : p ≠ []) : findAfter p (p ++ t) = some t := by
  obtain ⟨a, q, rfl⟩ := List.exists_cons_of_ne_nil hp
  rw [List.cons_append, findAfter, ← List.cons_append, if_pos (List.prefix_append _ _), List.drop_left]

end find

end Kubenyx.Common
