import Mathlib

/-!
# Slices

`slice l lo hi` are the elements of an array from `lo` up to `hi`, and `copyFromSlice`
overwrites them. There is no result where the copy is out of bounds or the lengths differ.

* `Copied`: what a copy changes and what it leaves.
* `copyFields_spec`: copies to disjoint places are all there at the end, and what is beside
  them is as before.
* `position_append`: where a pattern is found first does not depend on what follows.
-/

namespace Kubenyx.Common

variable {α : Type} {l l' src : List α} {lo hi a b : ℕ}

/-- The elements from `lo` up to `hi`. -/
def slice (l : List α) (lo hi : ℕ) : List α := (l.take hi).drop lo

/-- Overwrite the elements from `lo` up to `hi`. -/
def copyFromSlice (l : List α) (lo hi : ℕ) (src : List α) : Option (List α) :=
  if lo ≤ hi ∧ hi ≤ l.length ∧ src.length = hi - lo then some (l.take lo ++ src ++ l.drop hi)
  else none

theorem slice_self (l : List α) : slice l 0 l.length = l := by
  unfold slice
  rw [List.take_length, List.drop_zero]

theorem length_slice (hhi : hi ≤ l.length) : (slice l lo hi).length = hi - lo := by
  unfold slice
  rw [List.length_drop, List.length_take, Nat.min_eq_left hhi]

theorem mem_of_mem_slice {x : α} (h : x ∈ slice l lo hi) : x ∈ l :=
  List.mem_of_mem_take (List.mem_of_mem_drop h)

/-- Two slices side by side. -/
theorem slice_append_slice (hab : a ≤ b) (hhi : b ≤ hi) (hlen : hi ≤ l.length) :
    slice l a b ++ slice l b hi = slice l a hi := by
  have htake : l.take b = (l.take hi).take b := by rw [List.take_take, Nat.min_eq_left hhi]
  have hle : a ≤ ((l.take hi).take b).length := by
    rw [List.length_take, List.length_take]
    omega
  unfold slice
  rw [htake, ← List.drop_append_of_le_length hle, List.take_append_drop]

/-- The first part of a slice. -/
theorem slice_left {s t : List α} (h : slice l lo hi = s ++ t) (hhi : hi ≤ l.length) (hlo : lo ≤ hi) :
    slice l lo (lo + s.length) = s := by
  have hlen : (slice l lo hi).length = hi - lo := length_slice hhi
  rw [h, List.length_append] at hlen
  have happend := slice_append_slice (a := lo) (b := lo + s.length) (by omega) (by omega) hhi
  rw [h] at happend
  refine List.append_inj_left happend ?_
  rw [length_slice (by omega)]
  omega

/-- The result of a copy: the new elements are there, slices beside them are as before. -/
structure Copied (l l' : List α) (lo hi : ℕ) (src : List α) : Prop where
  length : l'.length = l.length
  self : slice l' lo hi = src
  frame : ∀ a b, b ≤ lo ∨ hi ≤ a → slice l' a b = slice l a b

theorem copied (hlo : lo ≤ hi) (hhi : hi ≤ l.length) (hsrc : src.length = hi - lo) :
    Copied l (l.take lo ++ src ++ l.drop hi) lo hi src := by
  have htake : (l.take lo).length = lo := by
    rw [List.length_take]
    omega
  have hfront : (l.take lo ++ src).length = hi := by
    rw [List.length_append, htake, hsrc]
    omega
  refine ⟨?_, ?_, ?_⟩
  · rw [List.length_append, hfront, List.length_drop]
    omega
  · unfold slice
    rw [List.take_left' hfront, List.drop_left' htake]
  · rintro a b (hle | hle)
    · unfold slice
      rw [List.append_assoc, List.take_append_of_le_length (by omega), List.take_take,
        Nat.min_eq_left hle]
    · unfold slice
      rw [List.drop_take, List.drop_take, List.drop_append, hfront,
        List.drop_eq_nil_of_le (by omega), List.nil_append, List.drop_drop]
      congr 2
      omega

theorem copyFromSlice_of_le (l : List α) (lo hi : ℕ) (src : List α) (hlo : lo ≤ hi)
    (hhi : hi ≤ l.length) (hsrc : src.length = hi - lo) :
    ∃ l', copyFromSlice l lo hi src = some l' ∧ Copied l l' lo hi src :=
  ⟨_, if_pos ⟨hlo, hhi, hsrc⟩, copied hlo hhi hsrc⟩

/-- Copies one after another, each with its place. -/
def copyFields (l : List α) : List (ℕ × List α) → Option (List α)
  | [] => some l
  | (lo, src) :: fs => (copyFromSlice l lo (lo + src.length) src).bind (copyFields · fs)

/-- Copies in bounds to disjoint places. -/
theorem copyFields_spec {fs : List (ℕ × List α)} (hbounds : ∀ f ∈ fs, f.1 + f.2.length ≤ l.length)
    (hdisj : fs.Pairwise fun f g => f.1 + f.2.length ≤ g.1 ∨ g.1 + g.2.length ≤ f.1) :
    ∃ l', copyFields l fs = some l' ∧ l'.length = l.length ∧
      (∀ f ∈ fs, slice l' f.1 (f.1 + f.2.length) = f.2) ∧
      ∀ a b, (∀ f ∈ fs, b ≤ f.1 ∨ f.1 + f.2.length ≤ a) → slice l' a b = slice l a b := by
  induction fs generalizing l with
  | nil => exact ⟨l, rfl, rfl, nofun, fun _ _ _ => rfl⟩
  | cons f fs ih =>
    obtain ⟨hf, hfs⟩ := List.forall_mem_cons.mp hbounds
    obtain ⟨hhead, htail⟩ := List.pairwise_cons.mp hdisj
    obtain ⟨l₁, hcopy, hcopied⟩ := copyFromSlice_of_le l f.1 (f.1 + f.2.length) f.2
      (Nat.le_add_right _ _) hf (Nat.add_sub_cancel_left ..).symm
    obtain ⟨l', hl', hlen, hself, hframe⟩ := ih (hcopied.length ▸ hfs) htail
    refine ⟨l', ?_, hlen.trans hcopied.length, List.forall_mem_cons.mpr ⟨?_, hself⟩, ?_⟩
    · rw [copyFields, hcopy, Option.bind_some, hl']
    · rw [hframe _ _ hhead, hcopied.self]
    · intro a b hab
      obtain ⟨hab, habs⟩ := List.forall_mem_cons.mp hab
      rw [hframe a b habs, hcopied.frame a b hab]

/-! ## Patterns -/

/-- `windows`: the slices of `n` elements. -/
def windows (n : ℕ) : List α → List (List α)
  | [] => []
  | x :: l => if n ≤ l.length + 1 then (x :: l).take n :: windows n l else []

/-- `windows(n).position(|w| w == pat)` for a pattern of `n` elements. -/
def position [DecidableEq α] (pat l : List α) : Option ℕ :=
  (windows pat.length l).findIdx? fun w => w = pat

theorem windows_of_lt {n : ℕ} (h : l.length < n) : windows n l = [] := by
  cases l with
  | nil => rfl
  | cons x l => exact if_neg (Nat.not_le_of_lt h)

section position

variable [DecidableEq α] {pat y : List α} {p : ℕ} {x : α}

theorem position_nil : position pat ([] : List α) = none := rfl

theorem position_cons (x : α) (l : List α) :
    position pat (x :: l) = if pat <+: x :: l then some 0 else (position pat l).map (· + 1) := by
  unfold position
  rw [windows]
  split_ifs with hlen hprefix hprefix
  · rw [List.findIdx?_cons, if_pos]
    exact decide_eq_true (List.prefix_iff_eq_take.mp hprefix).symm
  · rw [List.findIdx?_cons, if_neg]
    intro htake
    exact hprefix (List.prefix_iff_eq_take.mpr (of_decide_eq_true htake).symm)
  · exact absurd hprefix.length_le hlen
  · rw [windows_of_lt (by omega)]
    rfl

theorem position_le (h : position pat l = some p) :
    p + pat.length ≤ l.length := by
  induction l generalizing p with
  | nil => simp [position_nil] at h
  | cons x l ih =>
    rw [position_cons] at h
    split_ifs at h with hprefix
    · obtain rfl := Option.some.inj h
      rw [Nat.zero_add]
      exact hprefix.length_le
    · obtain ⟨q, hq, rfl⟩ := Option.map_eq_some_iff.mp h
      have := ih hq
      rw [List.length_cons]
      omega

theorem position_append (h : position pat l = some p) (y : List α) :
    position pat (l ++ y) = some p := by
  induction l generalizing p with
  | nil => simp [position_nil] at h
  | cons x l ih =>
    have hle := position_le h
    rw [position_cons] at h
    rw [List.cons_append, position_cons]
    split_ifs at h with hprefix
    · have hlong : pat <+: x :: (l ++ y) := hprefix.trans (List.prefix_append (x :: l) y)
      rw [if_pos hlong]
      exact h
    · obtain ⟨q, hq, rfl⟩ := Option.map_eq_some_iff.mp h
      rw [if_neg, ih hq]
      · rfl
      · intro hlong
        exact hprefix (List.prefix_of_prefix_length_le hlong (List.prefix_append (x :: l) y)
          (by omega))

/-- What does not have the first element of the pattern is skipped. -/
theorem position_append_of_not_mem (h : x ∉ l) (y : List α) :
    position (x :: pat) (l ++ y) = (position (x :: pat) y).map (· + l.length) := by
  induction l with
  | nil => simp
  | cons a l ih =>
    rw [List.mem_cons, not_or] at h
    rw [List.cons_append, position_cons, if_neg, ih h.2, Option.map_map]
    · congr 1
    · intro hprefix
      exact h.1 (List.cons_prefix_cons.mp hprefix).1

end position

end Kubenyx.Common
