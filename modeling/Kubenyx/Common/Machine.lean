import Mathlib

/-!
# Runs of a labelled machine

A machine takes a step of a given label where the step is enabled. A run is a
sequence of labels, each enabled in the state that the ones before it reach.

* `exec_invariant`: a property that every step preserves holds along every run.
* `Along.invariant`: the same for the runs all of whose steps meet a condition on
  the state and the label.
* `remember_invariant`: the same for a property of the state and of what is remembered
  of the run (`remember`), on which no step depends.
-/

namespace Kubenyx.Common

variable {S A : Type}

/-- The state that a sequence of labels reaches, `none` where a label is not
    enabled. -/
def exec (step : S → A → Option S) (s : S) : List A → Option S
  | [] => some s
  | a :: as => (step s a).bind fun s' => exec step s' as

/-- Every step of the run from `s` meets the condition `P`. -/
def Along (step : S → A → Option S) (P : S → A → Prop) (s : S) : List A → Prop
  | [] => True
  | a :: as => P s a ∧ ∀ s', step s a = some s' → Along step P s' as

variable {step : S → A → Option S} {P : S → A → Prop} {s s' s'' : S} {a : A} {as : List A}

theorem exec_cons_iff :
    exec step s (a :: as) = some s'' ↔ ∃ s', step s a = some s' ∧ exec step s' as = some s'' :=
  Option.bind_eq_some_iff

theorem exec_append {bs : List A} :
    exec step s (as ++ bs) = (exec step s as).bind fun s' => exec step s' bs := by
  induction as generalizing s with
  | nil => rfl
  | cons a as ih =>
    show (step s a).bind _ = ((step s a).bind _).bind _
    rw [Option.bind_assoc]
    exact congrArg (step s a).bind (funext fun _ => ih)

theorem along_append {bs : List A} :
    Along step P s (as ++ bs) ↔
      Along step P s as ∧ ∀ s', exec step s as = some s' → Along step P s' bs := by
  induction as generalizing s with
  | nil => simp [Along, exec]
  | cons a as ih =>
    simp only [List.cons_append, Along, ih, exec_cons_iff]
    constructor
    · rintro ⟨hp, hrest⟩
      refine ⟨⟨hp, fun s' h => (hrest s' h).1⟩, ?_⟩
      rintro s'' ⟨s', h, hexec⟩
      exact (hrest s' h).2 s'' hexec
    · rintro ⟨⟨hp, hrest⟩, hend⟩
      exact ⟨hp, fun s' h => ⟨hrest s' h, fun s'' hexec => hend s'' ⟨s', h, hexec⟩⟩⟩

/-- A run of labels that meet the condition in every state. -/
theorem along_of_forall (h : ∀ a ∈ as, ∀ s, P s a) : Along step P s as := by
  induction as generalizing s with
  | nil => trivial
  | cons a as ih =>
    obtain ⟨ha, has⟩ := List.forall_mem_cons.mp h
    exact ⟨ha s, fun _ _ => ih has⟩

/-- A property that the steps meeting `P` preserve holds along the runs that meet
    `P`. -/
theorem Along.invariant {Inv : S → Prop} (h : Along step P s as)
    (hstep : ∀ s a s', P s a → step s a = some s' → Inv s → Inv s')
    (hexec : exec step s as = some s') (hs : Inv s) : Inv s' := by
  induction as generalizing s with
  | nil =>
    obtain rfl := Option.some.inj hexec
    exact hs
  | cons a as ih =>
    obtain ⟨t, ht, hexec⟩ := exec_cons_iff.mp hexec
    exact ih (h.2 t ht) hexec (hstep s a t h.1 ht hs)

theorem along_true : Along step (fun _ _ => True) s as := along_of_forall fun _ _ _ => trivial

/-- A property that every step preserves holds along every run. -/
theorem exec_invariant {Inv : S → Prop}
    (hstep : ∀ s a s', step s a = some s' → Inv s → Inv s')
    (hexec : exec step s as = some s') (hs : Inv s) : Inv s' :=
  Along.invariant along_true (fun s a s' _ => hstep s a s') hexec hs

/-! ## What a run leaves to remember -/

section remember

variable {H : Type} {note : S → A → H → H}

/-- What is remembered after a run, where `note` adds a step to what was remembered before it. -/
def remember (step : S → A → Option S) (note : S → A → H → H) (s : S) (h : H) : List A → H
  | [] => h
  | a :: as => (step s a).elim h fun s' => remember step note s' (note s a h) as

/-- A property of the state and the memory that every step preserves holds after every run. -/
theorem remember_invariant {Inv : S → H → Prop}
    (hstep : ∀ s a s' h, step s a = some s' → Inv s h → Inv s' (note s a h))
    (hexec : exec step s as = some s') {h : H} (hs : Inv s h) :
    Inv s' (remember step note s h as) := by
  induction as generalizing s h with
  | nil =>
    obtain rfl := Option.some.inj hexec
    exact hs
  | cons a as ih =>
    obtain ⟨t, ht, hexec⟩ := exec_cons_iff.mp hexec
    rw [remember, ht]
    exact ih hexec (hstep s a t h ht hs)

end remember

end Kubenyx.Common
