import Kubenyx.Common.Encoding

/-!
# Words of a POSIX shell

What the scripts use of the shell's treatment of text: field splitting at a separator,
command substitution, the two parameter expansions that cut at a separator, the `case` test
for an entry of a separated list, and the fields of a line in awk.

* `awkFields_append`: a field of a line, when the fields have no space.
* `caseEntry_iff`: the `case` test with a separator on both sides finds a field exactly
  when it is an entry of the list.
-/

namespace Kubenyx.Common.Shell

open Kubenyx.Common

/-- `$(cat file)`: the text without the newlines at its end. -/
def substitute (t : Text) : Text := t.rdropWhile (· = '\n')

/-- Field splitting with `IFS` set to a character that is not white space: a separator at
    the end makes no empty field after it. -/
def fields (sep : Char) (t : Text) : List Text :=
  let parts := t.splitOn sep
  if parts.getLast? = some [] then parts.dropLast else parts

/-- `case "$sep$list$sep" in *"$sep$m$sep"*)`. -/
def caseEntry (sep : Char) (list m : Text) : Bool :=
  (sep :: m ++ [sep]) <:+: (sep :: list ++ [sep])

/-- `${t%%sep*}`: the text before the first separator. -/
def beforeFirst (sep : Char) (t : Text) : Text := t.takeWhile (· ≠ sep)

/-- `${t#*sep}`: the text after the first separator, or all of it. -/
def afterFirst (sep : Char) (t : Text) : Text :=
  if sep ∈ t then (t.dropWhile (· ≠ sep)).tail else t

/-- The fields that `awk -F', '` sees in a line. -/
def awkFields : Text → List Text
  | ',' :: ' ' :: t => [] :: awkFields t
  | c :: t => (awkFields t).modifyHead (c :: ·)
  | [] => [[]]

/-- `$k` in such a line. -/
def awkField (k : ℕ) (row : Text) : Text := (awkFields row).getD (k - 1) []

/-- `grep -qF`. -/
def grepF (t pattern : Text) : Bool := (t.splitOn '\n').any fun line => decide (pattern <:+: line)

variable {sep : Char} {list m t : Text}

/-- A text is free of separators, or two texts with a separator between them. -/
theorem separated_induction {P : Text → Prop} (hbase : ∀ t, sep ∉ t → P t)
    (hcut : ∀ a b, P a → P b → P (a ++ sep :: b)) : ∀ t, P t := by
  intro t
  induction hn : t.length using Nat.strong_induction_on generalizing t with
  | _ n ih =>
    by_cases hmem : sep ∈ t
    · obtain ⟨a, b, rfl⟩ := List.append_of_mem hmem
      rw [List.length_append, List.length_cons] at hn
      exact hcut a b (ih a.length (by omega) a rfl) (ih b.length (by omega) b rfl)
    · exact hbase t hmem

theorem not_mem_of_mem_splitOn : ∀ {t m : Text}, m ∈ t.splitOn sep → sep ∉ m := by
  refine @separated_induction sep (fun t => ∀ {m}, m ∈ t.splitOn sep → sep ∉ m) ?_ ?_
  · intro t ht m hm
    rw [List.splitOn_eq_singleton ht, List.mem_singleton] at hm
    exact hm ▸ ht
  · intro a b iha ihb m hm
    rw [List.splitOn_append_cons_self, List.mem_append] at hm
    exact hm.elim iha ihb

theorem fields_subset (h : m ∈ fields sep t) : m ∈ t.splitOn sep := by
  unfold fields at h
  dsimp only at h
  split_ifs at h with hlast
  · exact List.mem_of_mem_dropLast h
  · exact h

/-- A part of a list stands between two separators. -/
theorem delimited_of_mem : ∀ {list m : Text}, m ∈ list.splitOn sep →
    (sep :: m ++ [sep]) <:+: (sep :: list ++ [sep]) := by
  refine @separated_induction sep
    (fun list => ∀ {m}, m ∈ list.splitOn sep → (sep :: m ++ [sep]) <:+: (sep :: list ++ [sep])) ?_ ?_
  · intro list hlist m hm
    rw [List.splitOn_eq_singleton hlist, List.mem_singleton] at hm
    rw [hm]
  · intro a b iha ihb m hm
    rw [List.splitOn_append_cons_self, List.mem_append] at hm
    rcases hm with hm | hm
    · refine (iha hm).trans ⟨[], b ++ [sep], by simp⟩
    · refine (ihb hm).trans ⟨sep :: a, [], by simp⟩

/-- What stands between two separators, and has none itself, is a part of the list: both
    sides split into the same parts, and those outside the list are the two empty ones. -/
theorem mem_of_delimited (hm : sep ∉ m)
    (h : (sep :: m ++ [sep]) <:+: (sep :: list ++ [sep])) : m ∈ list.splitOn sep := by
  obtain ⟨a, b, hab⟩ := h
  have hsplit : a.splitOn sep ++ (m :: b.splitOn sep) = [] :: (list.splitOn sep ++ [[]]) := by
    have hleft : (a ++ (sep :: m ++ [sep]) ++ b).splitOn sep =
        a.splitOn sep ++ (m :: b.splitOn sep) := by
      rw [show a ++ (sep :: m ++ [sep]) ++ b = a ++ sep :: (m ++ sep :: b) by simp,
        List.splitOn_append_cons_self, List.splitOn_append_cons_self, List.splitOn_eq_singleton hm,
        List.singleton_append]
    have hright : (sep :: list ++ [sep]).splitOn sep = [] :: (list.splitOn sep ++ [[]]) := by
      rw [show sep :: list ++ [sep] = [] ++ sep :: (list ++ sep :: []) by simp,
        List.splitOn_append_cons_self, List.splitOn_append_cons_self, List.splitOn_nil,
        List.singleton_append]
    rw [← hleft, hab, hright]
  obtain ⟨a₁, as, has⟩ := List.exists_cons_of_ne_nil (List.splitOn_ne_nil sep a)
  obtain ⟨bs, b₁, hbs⟩ := List.eq_nil_or_concat (b.splitOn sep) |>.resolve_left
    (List.splitOn_ne_nil sep b)
  rw [has, hbs, List.concat_eq_append, List.cons_append] at hsplit
  have htail : as ++ m :: bs ++ [b₁] = list.splitOn sep ++ [[]] := by
    simpa using (List.cons.inj hsplit).2
  have hparts := (List.append_inj' htail rfl).1
  rw [← hparts]
  simp

theorem caseEntry_iff (h : m ∈ fields sep t) :
    caseEntry sep list m = true ↔ m ∈ list.splitOn sep := by
  unfold caseEntry
  rw [decide_eq_true_iff]
  exact ⟨mem_of_delimited (not_mem_of_mem_splitOn (fields_subset h)), delimited_of_mem⟩

theorem afterFirst_append {a b : Text} (ha : sep ∉ a) : afterFirst sep (a ++ sep :: b) = b := by
  have hne : ∀ c ∈ a, decide (c ≠ sep) = true := fun c hc => decide_eq_true fun h => ha (h ▸ hc)
  unfold afterFirst
  rw [if_pos (by simp), List.dropWhile_append_of_pos hne]
  simp

/-- Without a separator at the end every part is a field. -/
theorem fields_eq_splitOn (h : (t.splitOn sep).getLast? ≠ some []) : fields sep t = t.splitOn sep :=
  if_neg h

/-! ## awk -/

theorem awkFields_cons {c : Char} (h : t.head? ≠ some ' ') :
    awkFields (c :: t) = (awkFields t).modifyHead (c :: ·) := by
  rw [awkFields.eq_2]
  rintro u rfl rfl
  exact h rfl

/-- A field without a space ends at the next separator. -/
theorem awkFields_append {a : Text} (ha : ' ' ∉ a) :
    awkFields (a ++ ',' :: ' ' :: t) = a :: awkFields t := by
  induction a with
  | nil => rfl
  | cons c a ih =>
    rw [List.mem_cons, not_or] at ha
    have hhead : (a ++ ',' :: ' ' :: t).head? ≠ some ' ' := by
      cases a with
      | nil => simp
      | cons d a =>
        intro hd
        exact ha.2 (List.mem_cons.mpr (Or.inl (by simpa using hd.symm)))
    rw [List.cons_append, awkFields_cons hhead, ih ha.2, List.modifyHead_cons]

theorem awkFields_singleton {a : Text} (ha : ' ' ∉ a) : awkFields a = [a] := by
  induction a with
  | nil => rfl
  | cons c a ih =>
    rw [List.mem_cons, not_or] at ha
    have hhead : a.head? ≠ some ' ' := fun hd => ha.2 (List.mem_of_mem_head? hd)
    rw [awkFields_cons hhead, ih ha.2, List.modifyHead_cons]

end Kubenyx.Common.Shell
