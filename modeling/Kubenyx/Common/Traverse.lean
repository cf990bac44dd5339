import Mathlib.Data.List.Forall2

/-!
# Lists of what may fail to evaluate

A list of computations has a value where each of them has one, and it has the values in order.

* `exists_of_mapM`, `mem_of_mapM`: when there is a value, and what is in it.
-/

namespace Kubenyx.Common

section traverse

variable {α β : Type} {f : α → Option β} {l : List α} {r : List β}

theorem mapM_eq_some_iff : l.mapM f = some r ↔ List.Forall₂ (fun a b => f a = some b) l r := by
  induction l generalizing r with
  | nil =>
    rw [List.mapM_nil, List.forall₂_nil_left_iff]
    exact Option.some_inj.trans eq_comm
  | cons a l ih =>
    rw [List.mapM_cons, List.forall₂_cons_left_iff]
    simp only [Option.bind_eq_bind, Option.bind_eq_some_iff, Option.pure_def, Option.some_inj, ih]
    constructor
    · rintro ⟨b, hb, bs, hbs, rfl⟩
      exact ⟨b, bs, hb, hbs, rfl⟩
    · rintro ⟨b, bs, hb, hbs, rfl⟩
      exact ⟨b, hb, bs, hbs, rfl⟩

theorem exists_of_mapM : (∃ r, l.mapM f = some r) ↔ ∀ a ∈ l, ∃ b, f a = some b := by
  simp only [mapM_eq_some_iff]
  induction l with
  | nil => simp
  | cons a l ih =>
    rw [List.forall_mem_cons, ← ih]
    constructor
    · rintro ⟨r, hall⟩
      cases hall with
      | cons ha hl => exact ⟨⟨_, ha⟩, _, hl⟩
    · rintro ⟨⟨b, ha⟩, bs, hl⟩
      exact ⟨b :: bs, .cons ha hl⟩

theorem mem_of_mapM (h : l.mapM f = some r) {b : β} : b ∈ r ↔ ∃ a ∈ l, f a = some b := by
  induction mapM_eq_some_iff.mp h with
  | nil => simp
  | cons ha hl ih =>
    rw [List.mem_cons, List.exists_mem_cons_iff, ih (mapM_eq_some_iff.mpr hl), ha, Option.some.injEq,
      eq_comm]

end traverse

end Kubenyx.Common
