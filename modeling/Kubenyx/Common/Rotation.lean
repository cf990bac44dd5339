import Mathlib

/-!
# Rotations and stable partitions

The indices below `n` in cyclic order from a starting point, and a list with the elements of one
kind moved to the front, in the order that they had.

* `rotation_perm`, `rotation_pairwise`: a rotation has every index once, at increasing distance
  from the start.
* `partitioned_perm`, `partitioned_pairwise`: the partition keeps the elements, and the order
  within the two kinds.
* `rotation_head`: consecutive starting points begin with every index.
-/

namespace Kubenyx.Common

/-! ## Rotations -/

/-- The indices below `n`, from `c` on and around. -/
def rotation (n c : ℕ) : List ℕ := (List.range n).map fun i => (c + i) % n

/-- How far an index is from the start. -/
def offset (n c i : ℕ) : ℕ := (i + n - c) % n

section rotation

variable {n c i : ℕ}

theorem offset_add_mod (hc : c < n) (hi : i < n) : offset n c ((c + i) % n) = i := by
  unfold offset
  by_cases hwrap : c + i < n
  · rw [Nat.mod_eq_of_lt hwrap, show c + i + n - c = i + n by omega, Nat.add_mod_right,
      Nat.mod_eq_of_lt hi]
  · have hmod : (c + i) % n = c + i - n := by
      rw [Nat.mod_eq_sub_mod (by omega), Nat.mod_eq_of_lt (by omega)]
    rw [hmod, show c + i - n + n - c = i by omega, Nat.mod_eq_of_lt hi]

theorem rotation_eq_rotate (n c : ℕ) : rotation n c = (List.range n).rotate c := by
  refine List.ext_getElem (by simp [rotation]) fun i h₁ h₂ => ?_
  simp [rotation, List.getElem_rotate, Nat.add_comm]

theorem rotation_perm (n c : ℕ) : (rotation n c).Perm (List.range n) := by
  rw [rotation_eq_rotate]
  exact List.rotate_perm _ _

theorem rotation_pairwise (hc : c < n) :
    (rotation n c).Pairwise fun i j => offset n c i < offset n c j := by
  unfold rotation
  rw [List.pairwise_map]
  refine List.Pairwise.imp_of_mem ?_ List.pairwise_lt_range
  intro i j hi hj hlt
  rw [offset_add_mod hc (List.mem_range.mp hi), offset_add_mod hc (List.mem_range.mp hj)]
  exact hlt

theorem rotation_head (h : c < n) : (rotation n c).head? = some c := by
  obtain ⟨m, rfl⟩ : ∃ m, n = m + 1 := ⟨n - 1, by omega⟩
  unfold rotation
  rw [List.range_succ_eq_map, List.map_cons, List.head?_cons, Nat.add_zero, Nat.mod_eq_of_lt h]

/-- Among `n` consecutive numbers every index is one of the remainders. -/
theorem exists_add_mod_eq (hi : i < n) (x : ℕ) : ∃ k < n, (x + k) % n = i := by
  have hx : x % n < n := Nat.mod_lt _ (by omega)
  by_cases hle : x % n ≤ i
  · refine ⟨i - x % n, by omega, ?_⟩
    rw [← Nat.mod_add_mod, show x % n + (i - x % n) = i by omega, Nat.mod_eq_of_lt hi]
  · refine ⟨i + n - x % n, by omega, ?_⟩
    rw [← Nat.mod_add_mod, show x % n + (i + n - x % n) = i + n by omega, Nat.add_mod_right,
      Nat.mod_eq_of_lt hi]

end rotation

/-! ## Partitions -/

section partition

variable {α : Type} {p : α → Bool} {l : List α}

/-- The elements of one kind before the others. -/
def partitioned (p : α → Bool) (l : List α) : List α :=
  l.filter (fun a => p a = true) ++ l.filter (fun a => p a = false)

theorem partitioned_perm (p : α → Bool) (l : List α) : (partitioned p l).Perm l := by
  have hnot : (fun a => decide (p a = false)) = fun a => !decide (p a = true) := by
    funext a
    cases p a <;> rfl
  unfold partitioned
  rw [hnot]
  exact List.filter_append_perm _ l

theorem partitioned_pairwise (p : α → Bool) (l : List α) :
    (partitioned p l).Pairwise fun a b => p b = true → p a = true := by
  unfold partitioned
  rw [List.pairwise_append]
  refine ⟨?_, ?_, ?_⟩
  · refine List.pairwise_of_forall_mem_list fun a ha b _ _ => ?_
    simpa using (List.mem_filter.mp ha).2
  · refine List.pairwise_of_forall_mem_list fun a _ b hb hpb => ?_
    have hfalse : p b = false := by simpa using (List.mem_filter.mp hb).2
    rw [hfalse] at hpb
    exact absurd hpb (by decide)
  · intro a ha b _ _
    simpa using (List.mem_filter.mp ha).2

/-- Each kind is in the order that it had. -/
theorem filter_partitioned (p : α → Bool) (l : List α) (keep : Bool) :
    (partitioned p l).filter (fun a => p a = keep) = l.filter fun a => p a = keep := by
  unfold partitioned
  rw [List.filter_append, List.filter_filter, List.filter_filter]
  cases keep with
  | true =>
    have hnone : l.filter (fun a => decide (p a = true) && decide (p a = false)) = [] := by
      rw [List.filter_eq_nil_iff]
      intro a _
      cases p a <;> simp
    rw [hnone, List.append_nil]
    congr 1
    funext a
    exact Bool.and_self _
  | false =>
    have hnone : l.filter (fun a => decide (p a = false) && decide (p a = true)) = [] := by
      rw [List.filter_eq_nil_iff]
      intro a _
      cases p a <;> simp
    rw [hnone, List.nil_append]
    congr 1
    funext a
    exact Bool.and_self _

/-- The first element of the kind comes first. -/
theorem head?_partitioned {a : α} (h : l.head? = some a) (ha : p a = true) :
    (partitioned p l).head? = some a := by
  obtain ⟨t, rfl⟩ := List.head?_eq_some_iff.mp h
  unfold partitioned
  rw [List.filter_cons_of_pos (by simpa using ha)]
  rfl

end partition

end Kubenyx.Common
