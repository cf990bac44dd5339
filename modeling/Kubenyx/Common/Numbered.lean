import Mathlib

/-!
# Consecutively numbered feeds

A feed is a list whose items carry consecutive numbers. A window of a feed is
the part with numbers between two bounds. These are the facts that let a
consumer glue a replayed window to the items that arrive later: a window grows
by exactly the item with the next number, and does not notice items appended
beyond its end.
-/

namespace Kubenyx.Common

variable {α : Type}

/-- The items of the list are numbered `start`, `start + 1`, …. -/
def Numbered (num : α → ℤ) : ℤ → List α → Prop
  | _, [] => True
  | start, a :: l => num a = start ∧ Numbered num (start + 1) l

/-- The items with `lo ≤ number ≤ hi`. -/
def window (num : α → ℤ) (lo hi : ℤ) (l : List α) : List α :=
  l.filter fun a => lo ≤ num a ∧ num a ≤ hi

namespace Numbered

variable {num : α → ℤ} {start : ℤ} {l r : List α} {a : α}

theorem append_iff :
    Numbered num start (l ++ r) ↔ Numbered num start l ∧ Numbered num (start + l.length) r := by
  induction l generalizing start with
  | nil => simp [Numbered]
  | cons a l ih =>
    rw [List.cons_append, Numbered, Numbered, ih, and_assoc, List.length_cons]
    rw [show start + 1 + (l.length : ℤ) = start + ((l.length + 1 : ℕ) : ℤ) by push_cast; ring]

theorem mem_bounds (h : Numbered num start l) (ha : a ∈ l) :
    start ≤ num a ∧ num a < start + l.length := by
  induction l generalizing start with
  | nil => simp at ha
  | cons b l ih =>
    obtain ⟨hb, hl⟩ := h
    rw [List.length_cons]
    push_cast
    rcases List.mem_cons.mp ha with rfl | ha
    · omega
    · have := ih hl ha
      omega

theorem pairwise_lt (h : Numbered num start l) : l.Pairwise fun a b => num a < num b := by
  induction l generalizing start with
  | nil => exact List.Pairwise.nil
  | cons b l ih =>
    obtain ⟨hb, hl⟩ := h
    refine List.pairwise_cons.mpr ⟨fun a ha => ?_, ih hl⟩
    have := (mem_bounds hl ha).1
    omega

theorem num_getElem? (h : Numbered num start l) {i : ℕ} (hi : l[i]? = some a) :
    num a = start + i := by
  induction l generalizing start i with
  | nil => simp at hi
  | cons b l ih =>
    obtain ⟨hb, hl⟩ := h
    cases i with
    | zero =>
      rw [List.getElem?_cons_zero, Option.some.injEq] at hi
      subst hi
      simpa using hb
    | succ i =>
      rw [List.getElem?_cons_succ] at hi
      rw [ih hl hi]
      push_cast
      ring

theorem map {β : Type} {f : β → α} {l : List β} (h : Numbered (fun b => num (f b)) start l) :
    Numbered num start (l.map f) := by
  induction l generalizing start with
  | nil => trivial
  | cons b l ih => exact ⟨h.1, ih h.2⟩

theorem drop (h : Numbered num start l) {n : ℕ} (hn : n ≤ l.length) :
    Numbered num (start + n) (l.drop n) := by
  rw [← List.take_append_drop n l, append_iff, List.length_take, min_eq_left hn] at h
  exact h.2

/-- Keeping the numbers beyond a bound drops an initial part of the feed. -/
theorem filter_gt (h : Numbered num start l) (c : ℤ) :
    l.filter (fun a => num a > c) = l.drop (c + 1 - start).toNat := by
  induction l generalizing start with
  | nil => simp
  | cons a l ih =>
    obtain ⟨ha, hl⟩ := h
    by_cases hc : c < start
    · have hzero : (c + 1 - start).toNat = 0 := by omega
      rw [hzero, List.drop_zero, List.filter_eq_self]
      intro b hb
      have := (show Numbered num start (a :: l) from ⟨ha, hl⟩).mem_bounds hb
      simp only [decide_eq_true_eq]
      omega
    · have hsucc : (c + 1 - start).toNat = (c + 1 - (start + 1)).toNat + 1 := by omega
      rw [List.filter_cons_of_neg (by simp only [decide_eq_true_eq]; omega), ih hl, hsucc,
        List.drop_succ_cons]

end Numbered

/-! ## Windows -/

section Window

variable {num : α → ℤ} {lo hi : ℤ} {l r : List α}

theorem mem_window {a : α} : a ∈ window num lo hi l ↔ a ∈ l ∧ lo ≤ num a ∧ num a ≤ hi := by
  simp [window]

/-- Items numbered beyond the end do not enter the window. -/
theorem window_append_of_gt (h : ∀ a ∈ r, hi < num a) :
    window num lo hi (l ++ r) = window num lo hi l := by
  have hr : r.filter (fun a => decide (lo ≤ num a ∧ num a ≤ hi)) = [] := by
    rw [List.filter_eq_nil_iff]
    intro a ha
    have := h a ha
    simp only [decide_eq_true_eq, not_and]
    omega
  rw [window, List.filter_append, hr, List.append_nil, window]

theorem window_eq_nil_of_lt (h : hi < lo) : window num lo hi l = [] := by
  rw [window, List.filter_eq_nil_iff]
  intro a _
  simp only [decide_eq_true_eq, not_and]
  omega

/-- A window that starts beyond its end may as well start right after it. -/
theorem window_min : window num (min lo (hi + 1)) hi l = window num lo hi l := by
  refine List.filter_congr fun a _ => ?_
  simp only [decide_eq_decide]
  omega

/-- The window up to the number after `hi` has exactly that item more. -/
theorem window_succ {start : ℤ} (h : Numbered num start l) {a : α} (ha : a ∈ l)
    (hlo : lo ≤ hi + 1) (hnum : num a = hi + 1) :
    window num lo (hi + 1) l = window num lo hi l ++ [a] := by
  obtain ⟨pre, post, rfl⟩ := List.append_of_mem ha
  have hsorted := h.pairwise_lt
  rw [List.pairwise_append, List.pairwise_cons] at hsorted
  obtain ⟨-, ⟨hpost, -⟩, hpre⟩ := hsorted
  have hpost' : ∀ b ∈ post, hi + 1 < num b := fun b hb => by have := hpost b hb; omega
  have hpre' : ∀ b ∈ pre, num b ≤ hi := fun b hb => by
    have := hpre b hb a List.mem_cons_self; omega
  have hbelow : window num lo hi (pre ++ a :: post) = window num lo hi pre := by
    refine window_append_of_gt fun b hb => ?_
    rcases List.mem_cons.mp hb with rfl | hb
    · omega
    · have := hpost' b hb
      omega
  have hsame : window num lo (hi + 1) pre = window num lo hi pre := by
    refine List.filter_congr fun b hb => ?_
    have := hpre' b hb
    simp only [decide_eq_decide]
    omega
  have hlast : window num lo (hi + 1) [a] = [a] := by simp [window, hnum, hlo]
  calc window num lo (hi + 1) (pre ++ a :: post)
      = window num lo (hi + 1) (pre ++ [a] ++ post) := by rw [List.append_assoc]; rfl
    _ = window num lo (hi + 1) (pre ++ [a]) := window_append_of_gt hpost'
    _ = window num lo (hi + 1) pre ++ window num lo (hi + 1) [a] := by
        simp only [window, List.filter_append]
    _ = window num lo hi (pre ++ a :: post) ++ [a] := by rw [hsame, hlast, hbelow]

/-- In a feed, the items up to `hi` are those up to `lo` and then the window after it. -/
theorem Numbered.filter_le {start : ℤ} (h : Numbered num start l) (hle : lo ≤ hi) :
    (l.filter fun a => num a ≤ hi) = (l.filter fun a => num a ≤ lo) ++ window num (lo + 1) hi l := by
  induction l generalizing start with
  | nil => rfl
  | cons a l ih =>
    by_cases hlo : num a ≤ lo
    · have hhi : num a ≤ hi := hlo.trans hle
      have hout : ¬ (lo + 1 ≤ num a ∧ num a ≤ hi) := by omega
      rw [List.filter_cons_of_pos (by simpa using hhi), List.filter_cons_of_pos (by simpa using hlo),
        ih h.2, window, window, List.filter_cons_of_neg (by simpa using hout)]
      rfl
    · -- the feed is in order, so nothing that follows is below `lo`
      have hstart : num a = start := h.1
      have hnone : (a :: l).filter (fun b => num b ≤ lo) = [] := by
        rw [List.filter_eq_nil_iff]
        intro b hb
        have hbound := h.mem_bounds hb
        simp only [decide_eq_true_eq]
        omega
      rw [hnone, List.nil_append]
      refine List.filter_congr fun b hb => ?_
      have hbound := h.mem_bounds hb
      simp only [decide_eq_decide]
      omega

end Window

end Kubenyx.Common
