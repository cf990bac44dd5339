import Kubenyx.Common.OrdMap

/-!
# Replaying a journal of changes

A change names a key, the value it replaced and the value it left (`none` for
absent). Replaying a journal over a map gives the map after the journal; a
journal is justified over a map when every change records the value that the
replay holds just before it.

* `replay_append`, `justified_append`: journals compose.
* `get?_replay_of_untouched`: a key no change names keeps its value.
* `get?_replay_cases`: a value held after the replay was there untouched, or
  was left by a change of the journal.
* `Justified.first`: the first change of a key replaced the value the map held.
* `View.replay`: a map that keeps a part of the keys, each value seen through a
  function, stays such a view by replaying the changes of these keys only.
-/

namespace Kubenyx.Common

/-- One change of a keyed store. -/
structure Change (K V : Type) where
  key : K
  prev : Option V
  next : Option V

namespace OrdMap

variable {K V : Type} [LinearOrder K]

/-- The map after one change. -/
def apply (m : OrdMap K V) (c : Change K V) : OrdMap K V :=
  match c.next with
  | some v => m.insert c.key v
  | none => m.remove c.key

/-- The map after a journal. -/
def replay (m : OrdMap K V) (cs : List (Change K V)) : OrdMap K V := cs.foldl apply m

/-- Every change records the value it replaced. -/
def Justified : OrdMap K V → List (Change K V) → Prop
  | _, [] => True
  | m, c :: cs => c.prev = m.get? c.key ∧ Justified (m.apply c) cs

@[simp] theorem replay_nil (m : OrdMap K V) : m.replay [] = m := rfl

@[simp] theorem replay_cons (m : OrdMap K V) (c : Change K V) (cs : List (Change K V)) :
    m.replay (c :: cs) = (m.apply c).replay cs := rfl

theorem replay_append (m : OrdMap K V) (cs ds : List (Change K V)) :
    m.replay (cs ++ ds) = (m.replay cs).replay ds := List.foldl_append

theorem justified_append {m : OrdMap K V} {cs ds : List (Change K V)} :
    m.Justified (cs ++ ds) ↔ m.Justified cs ∧ (m.replay cs).Justified ds := by
  induction cs generalizing m with
  | nil => simp [Justified]
  | cons c cs ih => simp [Justified, ih, and_assoc]

/-- In a justified journal each change replaced the value of the replay so far. -/
theorem Justified.prev_eq {m : OrdMap K V} {cs : List (Change K V)} (h : m.Justified cs)
    {pre post : List (Change K V)} {c : Change K V} (hc : cs = pre ++ c :: post) :
    c.prev = (m.replay pre).get? c.key := by
  rw [hc, justified_append] at h
  exact h.2.1

theorem get?_apply (m : OrdMap K V) (c : Change K V) (k : K) :
    (m.apply c).get? k = if c.key = k then c.next else m.get? k := by
  unfold apply
  cases c.next with
  | some v => exact get?_insert m c.key v k
  | none => exact get?_remove m c.key k

/-- A key that no change names keeps its value. -/
theorem get?_replay_of_untouched {m : OrdMap K V} {cs : List (Change K V)} {k : K}
    (h : ∀ c ∈ cs, c.key ≠ k) : (m.replay cs).get? k = m.get? k := by
  induction cs generalizing m with
  | nil => rfl
  | cons c cs ih =>
    rw [replay_cons, ih fun d hd => h d (List.mem_cons_of_mem _ hd), get?_apply,
      if_neg (h c List.mem_cons_self)]

/-- What the replay holds under a key is the old value, if no change names the
    key, or what one of the changes of the key left. -/
theorem get?_replay_cases (m : OrdMap K V) (cs : List (Change K V)) (k : K) :
    ((∀ c ∈ cs, c.key ≠ k) ∧ (m.replay cs).get? k = m.get? k) ∨
      ∃ c ∈ cs, c.key = k ∧ (m.replay cs).get? k = c.next := by
  induction cs generalizing m with
  | nil => simp
  | cons c cs ih =>
    rw [replay_cons]
    rcases ih (m.apply c) with ⟨hcs, hget⟩ | ⟨d, hd, hdk, hget⟩
    · rw [get?_apply] at hget
      by_cases hk : c.key = k
      · rw [if_pos hk] at hget
        exact Or.inr ⟨c, List.mem_cons_self, hk, hget⟩
      · rw [if_neg hk] at hget
        refine Or.inl ⟨?_, hget⟩
        intro d hd
        rcases List.mem_cons.mp hd with rfl | hd
        · exact hk
        · exact hcs d hd
    · exact Or.inr ⟨d, List.mem_cons_of_mem _ hd, hdk, hget⟩

/-- The first change of a key replaced the value that the map held. -/
theorem Justified.first {m : OrdMap K V} {cs pre post : List (Change K V)} {c : Change K V}
    (h : m.Justified cs) (hc : cs = pre ++ c :: post) (hpre : ∀ d ∈ pre, d.key ≠ c.key) :
    c.prev = m.get? c.key := by
  rw [h.prev_eq hc, get?_replay_of_untouched hpre]

end OrdMap

/-! ## Views -/

/-- The change of a value seen through `f`. -/
def Change.map {K V W : Type} (f : V → W) (c : Change K V) : Change K W :=
  ⟨c.key, c.prev.map f, c.next.map f⟩

namespace OrdMap

variable {K V W : Type} [LinearOrder K] {p : K → Bool} {f : V → W} {m : OrdMap K V}
  {n n' : OrdMap K W}

/-- `n` holds what `m` holds under the keys of `p`, each value seen through `f`. -/
def View (p : K → Bool) (f : V → W) (m : OrdMap K V) (n : OrdMap K W) : Prop :=
  ∀ k, n.get? k = if p k then (m.get? k).map f else none

/-- The view follows a change of one of its keys. -/
theorem View.apply (h : View p f m n) {c : Change K V} (hc : p c.key = true) :
    View p f (m.apply c) (n.apply (c.map f)) := by
  intro k
  rw [get?_apply, get?_apply]
  show (if c.key = k then c.next.map f else n.get? k) = _
  by_cases hk : c.key = k
  · subst hk
    simp [hc]
  · simp only [if_neg hk]
    exact h k

/-- The view does not notice a change of another key. -/
theorem View.apply_other (h : View p f m n) {c : Change K V} (hc : p c.key = false) :
    View p f (m.apply c) n := by
  intro k
  rw [get?_apply]
  by_cases hk : c.key = k
  · subst hk
    rw [h c.key]
    simp [hc]
  · simp only [if_neg hk]
    exact h k

/-- A view is kept up to date by the changes of its keys. -/
theorem View.replay (h : View p f m n) (cs : List (Change K V)) :
    View p f (m.replay cs) (n.replay ((cs.filter fun c => p c.key).map (Change.map f))) := by
  induction cs generalizing m n with
  | nil => exact h
  | cons c cs ih =>
    by_cases hc : p c.key = true
    · rw [List.filter_cons_of_pos (by simpa using hc)]
      exact ih (h.apply hc)
    · rw [List.filter_cons_of_neg (by simpa using hc)]
      exact ih (h.apply_other (Bool.eq_false_iff.mpr hc))

end OrdMap

end Kubenyx.Common
