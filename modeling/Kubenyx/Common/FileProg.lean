import Kubenyx.Common.Machine

/-!
# Programs over files

A program reads files, replaces files atomically, returns or fails. Running it
alone gives its result and the files it leaves; a program that is killed leaves the
first of its writes; a program that runs beside others takes one step at a time.

* `run_files`, `killed`: a run and a killed run leave the writes of the run, all or
  the first ones, applied to the files before.
* `AllWrites`: every write that the program can make, whatever it reads, meets a
  condition. It composes (`AllWrites.bind`), it bounds what a run leaves
  (`AllWrites.writes`, `AllWrites.frame_run`) and it is kept by single steps
  (`AllWrites.step`).
* `Informed`: every write of the program meets a condition on what it has read before
  it. It composes too, and single steps keep it (`Informed.step`).
* `Keeps`: the program leaves some files as they are. Other than `AllWrites` it may
  depend on what the files hold.
* `forM_establishes`: what each of a sequence of programs establishes and the later
  ones keep holds at the end.
-/

namespace Kubenyx.Common

variable {P C E α β : Type}

/-- The files of a system, `none` where there is none. -/
abbrev Files (P C : Type) := P → Option C

namespace Files

variable [DecidableEq P]

/-- Replace a file. -/
def set (d : Files P C) (p : P) (c : C) : Files P C := Function.update d p (some c)

/-- Replace files one after another. -/
def apply (d : Files P C) (ws : List (P × C)) : Files P C :=
  ws.foldl (fun d w => d.set w.1 w.2) d

@[simp] theorem set_self (d : Files P C) (p : P) (c : C) : d.set p c p = some c :=
  Function.update_self ..

theorem set_of_ne (d : Files P C) {p q : P} (c : C) (h : q ≠ p) : d.set p c q = d q :=
  Function.update_of_ne h ..

@[simp] theorem apply_nil (d : Files P C) : d.apply [] = d := rfl

@[simp] theorem apply_cons (d : Files P C) (w : P × C) (ws : List (P × C)) :
    d.apply (w :: ws) = (d.set w.1 w.2).apply ws := rfl

theorem apply_append (d : Files P C) (ws vs : List (P × C)) :
    d.apply (ws ++ vs) = (d.apply ws).apply vs := List.foldl_append

/-- Files that are not written stay. -/
theorem apply_of_forall_ne (d : Files P C) {ws : List (P × C)} {p : P} (h : ∀ w ∈ ws, w.1 ≠ p) :
    d.apply ws p = d p := by
  induction ws generalizing d with
  | nil => rfl
  | cons w ws ih =>
    rw [apply_cons, ih _ fun v hv => h v (List.mem_cons_of_mem _ hv),
      set_of_ne _ _ (h w List.mem_cons_self).symm]

/-- What the writes leave in a file depends on that file only. -/
theorem apply_congr {d d' : Files P C} {p : P} (h : d p = d' p) (ws : List (P × C)) :
    d.apply ws p = d'.apply ws p := by
  induction ws generalizing d d' with
  | nil => exact h
  | cons w ws ih =>
    refine ih ?_
    show d.set w.1 w.2 p = d'.set w.1 w.2 p
    by_cases hp : p = w.1
    · rw [hp, set_self, set_self]
    · rw [set_of_ne _ _ hp, set_of_ne _ _ hp, h]

/-- A file is as it was, or as a write has left it. -/
theorem apply_cases (d : Files P C) (ws : List (P × C)) (p : P) :
    d.apply ws p = d p ∨ ∃ c, (p, c) ∈ ws ∧ d.apply ws p = some c := by
  induction ws generalizing d with
  | nil => exact Or.inl rfl
  | cons w ws ih =>
    rw [apply_cons]
    rcases ih (d.set w.1 w.2) with h | ⟨c, hmem, h⟩
    · by_cases hp : p = w.1
      · subst hp
        rw [set_self] at h
        exact Or.inr ⟨w.2, List.mem_cons_self, h⟩
      · rw [set_of_ne _ _ hp] at h
        exact Or.inl h
    · exact Or.inr ⟨c, List.mem_cons_of_mem _ hmem, h⟩

theorem apply_append_left (d : Files P C) {ws vs : List (P × C)} {p : P}
    (h : ∀ w ∈ vs, w.1 ≠ p) : d.apply (ws ++ vs) p = d.apply ws p := by
  rw [apply_append, apply_of_forall_ne _ h]

theorem apply_append_right (d : Files P C) {ws vs : List (P × C)} {p : P}
    (h : ∀ w ∈ ws, w.1 ≠ p) : d.apply (ws ++ vs) p = d.apply vs p := by
  rw [apply_append]
  exact apply_congr (apply_of_forall_ne _ h) vs

end Files

/-- A program that reads and replaces files. -/
inductive FileProg (P C E α : Type) where
  | pure (a : α)
  | read (p : P) (k : Option C → FileProg P C E α)
  | write (p : P) (c : C) (next : FileProg P C E α)
  | fail (e : E)

namespace FileProg

/-- Go on with the result of a program. -/
def bind : FileProg P C E α → (α → FileProg P C E β) → FileProg P C E β
  | .pure a, f => f a
  | .read p k, f => .read p fun o => (k o).bind f
  | .write p c next, f => .write p c (next.bind f)
  | .fail e, _ => .fail e

instance : Monad (FileProg P C E) where
  pure := FileProg.pure
  bind := FileProg.bind

/-- Read a file. -/
def readFile (p : P) : FileProg P C E (Option C) := .read p .pure

/-- Replace a file. -/
def writeFile (p : P) (c : C) : FileProg P C E Unit := .write p c (.pure ())

/-! ## Running alone -/

section Run

variable [DecidableEq P]

/-- The result of a program and the files it leaves. -/
def run : FileProg P C E α → Files P C → Except E α × Files P C
  | .pure a, d => (.ok a, d)
  | .read p k, d => (k (d p)).run d
  | .write p c next, d => next.run (d.set p c)
  | .fail e, d => (.error e, d)

/-- The writes that a program makes when it runs alone. -/
def writes : FileProg P C E α → Files P C → List (P × C)
  | .pure _, _ => []
  | .read p k, d => (k (d p)).writes d
  | .write p c next, d => (p, c) :: next.writes (d.set p c)
  | .fail _, _ => []

/-- The files that a program leaves that is killed after `n` writes. -/
def killed (m : FileProg P C E α) (n : ℕ) (d : Files P C) : Files P C :=
  d.apply ((m.writes d).take n)

theorem run_files (m : FileProg P C E α) (d : Files P C) : (m.run d).2 = d.apply (m.writes d) := by
  induction m generalizing d with
  | pure a => rfl
  | read p k ih => exact ih (d p) d
  | write p c next ih => exact ih (d.set p c)
  | fail e => rfl

theorem run_readFile_bind (p : P) (f : Option C → FileProg P C E α) (d : Files P C) :
    (readFile p >>= f).run d = (f (d p)).run d := rfl

/-- Running a sequence of two programs. -/
theorem run_bind (m : FileProg P C E α) (f : α → FileProg P C E β) (d : Files P C) :
    (m >>= f).run d =
      match m.run d with
      | (.ok a, d') => (f a).run d'
      | (.error e, d') => (.error e, d') := by
  induction m generalizing d with
  | pure a => rfl
  | read p k ih => exact ih (d p) d
  | write p c next ih => exact ih (d.set p c)
  | fail e => rfl

theorem writes_bind (m : FileProg P C E α) (f : α → FileProg P C E β) (d : Files P C) :
    (m >>= f).writes d = m.writes d ++
      match m.run d with
      | (.ok a, d') => (f a).writes d'
      | (.error _, _) => [] := by
  induction m generalizing d with
  | pure a => rfl
  | read p k ih => exact ih (d p) d
  | write p c next ih => exact congrArg ((p, c) :: ·) (ih (d.set p c))
  | fail e => rfl

variable {m : FileProg P C E α} {f : α → FileProg P C E β} {d : Files P C} {a : α} {b : β}

/-- Going on after a program that returns. -/
theorem run_bind_of_ok (h : (m.run d).1 = .ok a) : (m >>= f).run d = (f a).run (m.run d).2 := by
  rw [run_bind]
  rcases hm : m.run d with ⟨r, d'⟩
  rw [hm] at h
  obtain rfl : r = .ok a := h
  rfl

theorem writes_bind_of_ok (h : (m.run d).1 = .ok a) :
    (m >>= f).writes d = m.writes d ++ (f a).writes (d.apply (m.writes d)) := by
  rw [writes_bind, ← run_files]
  rcases hm : m.run d with ⟨r, d'⟩
  rw [hm] at h
  obtain rfl : r = .ok a := h
  rfl

/-- Where a sequence returns, its first program does. -/
theorem ok_of_run_bind_ok (h : ((m >>= f).run d).1 = .ok b) : ∃ a, (m.run d).1 = .ok a := by
  rw [run_bind] at h
  rcases hm : m.run d with ⟨r | a, d'⟩
  · rw [hm] at h
    cases h
  · exact ⟨a, rfl⟩

end Run

/-! ## Single steps -/

/-- The next step of a program that runs beside others, `none` where it has ended. -/
def step [DecidableEq P] : FileProg P C E α → Files P C → Option (FileProg P C E α × Files P C)
  | .pure _, _ => none
  | .read p k, d => some (k (d p), d)
  | .write p c next, d => some (next, d.set p c)
  | .fail _, _ => none

/-- The number of steps up to the exit of a program that runs alone. -/
def steps [DecidableEq P] : FileProg P C E α → Files P C → ℕ
  | .pure _, _ => 1
  | .read p k, d => (k (d p)).steps d + 1
  | .write p c next, d => next.steps (d.set p c) + 1
  | .fail _, _ => 1

/-! ## What a program can write -/

/-- Every write of the program, whatever it reads, meets the condition. -/
def AllWrites (W : P → C → Prop) : FileProg P C E α → Prop
  | .pure _ => True
  | .read _ k => ∀ o, (k o).AllWrites W
  | .write p c next => W p c ∧ next.AllWrites W
  | .fail _ => True

namespace AllWrites

variable {W V : P → C → Prop} {m : FileProg P C E α} {f : α → FileProg P C E β}

theorem pure (a : α) : (Pure.pure a : FileProg P C E α).AllWrites W := trivial

theorem readFile (p : P) : (FileProg.readFile p : FileProg P C E (Option C)).AllWrites W :=
  fun _ => trivial

theorem writeFile {p : P} {c : C} (h : W p c) :
    (FileProg.writeFile p c : FileProg P C E Unit).AllWrites W := ⟨h, trivial⟩

theorem bind (hm : m.AllWrites W) (hf : ∀ a, (f a).AllWrites W) : (m >>= f).AllWrites W := by
  induction m with
  | pure a => exact hf a
  | read p k ih => exact fun o => ih o (hm o)
  | write p c next ih => exact ⟨hm.1, ih hm.2⟩
  | fail e => trivial

theorem mono (hm : m.AllWrites W) (h : ∀ p c, W p c → V p c) : m.AllWrites V := by
  induction m with
  | pure a => trivial
  | read p k ih => exact fun o => ih o (hm o)
  | write p c next ih => exact ⟨h p c hm.1, ih hm.2⟩
  | fail e => trivial

/-- Programs one after another, over a list. -/
theorem forM {ι : Type} {l : List ι} {g : ι → FileProg P C E PUnit}
    (h : ∀ i ∈ l, (g i).AllWrites W) : (l.forM g).AllWrites W := by
  induction l with
  | nil => exact pure ()
  | cons i l ih =>
    exact bind (h i List.mem_cons_self) fun _ => ih fun j hj => h j (List.mem_cons_of_mem _ hj)

variable [DecidableEq P]

theorem writes (hm : m.AllWrites W) (d : Files P C) : ∀ w ∈ m.writes d, W w.1 w.2 := by
  induction m generalizing d with
  | pure a => exact nofun
  | read p k ih => exact ih (d p) (hm (d p)) d
  | write p c next ih => exact List.forall_mem_cons.mpr ⟨hm.1, ih hm.2 (d.set p c)⟩
  | fail e => exact nofun

/-- A run leaves the files that the program does not write. -/
theorem frame_run (hm : m.AllWrites W) {p : P} (hp : ∀ c, ¬ W p c) (d : Files P C) :
    (m.run d).2 p = d p := by
  rw [run_files]
  refine Files.apply_of_forall_ne d fun w hw heq => ?_
  have := hm.writes d w hw
  rw [heq] at this
  exact hp _ this

/-- A single step leaves a program whose writes meet the condition, and replaces files
    by what meets it. -/
theorem step {m' : FileProg P C E α} {d d' : Files P C} (hm : m.AllWrites W)
    (h : m.step d = some (m', d')) :
    m'.AllWrites W ∧ ∀ p, d' p = d p ∨ ∃ c, W p c ∧ d' p = some c := by
  match m, h with
  | .read q k, h =>
    cases h
    exact ⟨hm (d q), fun p => Or.inl rfl⟩
  | .write q c next, h =>
    cases h
    refine ⟨hm.2, fun p => ?_⟩
    by_cases hp : p = q
    · subst hp
      exact Or.inr ⟨c, hm.1, Files.set_self ..⟩
    · exact Or.inl (Files.set_of_ne _ _ hp)

end AllWrites

/-! ## What a program has read -/

section Informed

variable [DecidableEq P]

/-- What a program has read last of each file, after its next step. -/
def look (m : FileProg P C E α) (seen : Files P C) (d : Files P C) : Files P C :=
  match m with
  | .read p _ => Function.update seen p (d p)
  | _ => seen

/-- The next step of the program replaces the file. -/
def replaces (m : FileProg P C E α) (p : P) : Bool :=
  match m with
  | .write q _ _ => q = p
  | _ => false

/-- Every write of the program meets the condition on what it has read last of each file before
    the write; and so does its result, with all that it has read. -/
def Informed (W : Files P C → P → C → Prop) : FileProg P C E α → Files P C →
    (α → Files P C → Prop) → Prop
  | .pure a, seen, Q => Q a seen
  | .read p k, seen, Q => ∀ o, (k o).Informed W (Function.update seen p o) Q
  | .write p c next, seen, Q => W seen p c ∧ next.Informed W seen Q
  | .fail _, _, _ => True

variable {W : Files P C → P → C → Prop} {m : FileProg P C E α} {f : α → FileProg P C E β}
  {seen : Files P C}

theorem Informed.bind {Q : β → Files P C → Prop}
    (h : m.Informed W seen fun a seen' => (f a).Informed W seen' Q) :
    (m >>= f).Informed W seen Q := by
  induction m generalizing seen with
  | pure a => exact h
  | read p k ih => exact fun o => ih o (h o)
  | write p c next ih => exact ⟨h.1, ih h.2⟩
  | fail e => trivial

theorem Informed.mono {Q Q' : α → Files P C → Prop} (h : m.Informed W seen Q)
    (hQ : ∀ a seen', Q a seen' → Q' a seen') : m.Informed W seen Q' := by
  induction m generalizing seen with
  | pure a => exact hQ a seen h
  | read p k ih => exact fun o => ih o (h o)
  | write p c next ih => exact ⟨h.1, ih h.2⟩
  | fail e => trivial

/-- Programs one after another keep what each of them keeps. -/
theorem Informed.forM {ι : Type} {l : List ι} {g : ι → FileProg P C E PUnit}
    {I : Files P C → Prop}
    (h : ∀ i ∈ l, ∀ seen, I seen → (g i).Informed W seen fun _ => I) (hI : I seen) :
    (l.forM g).Informed W seen fun _ => I := by
  induction l generalizing seen with
  | nil => exact hI
  | cons i l ih =>
    refine Informed.bind ((h i List.mem_cons_self seen hI).mono fun _ seen' hI' => ?_)
    exact ih (fun j hj => h j (List.mem_cons_of_mem _ hj)) hI'

end Informed

/-! ## What a program keeps -/

/-- The program leaves the files in `S` as they are in `d₀`, where it finds them so. -/
def Keeps [DecidableEq P] (m : FileProg P C E α) (S : Set P) (d₀ : Files P C) : Prop :=
  ∀ d, Set.EqOn d d₀ S → Set.EqOn (m.run d).2 d₀ S

section Sequences

variable [DecidableEq P] {ι : Type} {l : List ι} {g : ι → FileProg P C E PUnit}
  {m : FileProg P C E α} {f : α → FileProg P C E β} {S : Set P} {d d₀ : Files P C}

theorem Keeps.of_allWrites {W : P → C → Prop} (hm : m.AllWrites W) (hS : ∀ p ∈ S, ∀ c, ¬ W p c) :
    m.Keeps S d₀ := fun d hd p hp => (hm.frame_run (hS p hp) d).trans (hd hp)

/-- The second program may rely on what the first has read. -/
theorem Keeps.bind (hm : m.Keeps S d₀)
    (hf : ∀ d a, Set.EqOn d d₀ S → (m.run d).1 = .ok a → (f a).Keeps S d₀) :
    (m >>= f).Keeps S d₀ := by
  intro d hd
  rw [run_bind]
  rcases hrun : m.run d with ⟨r, d'⟩
  have hd' : Set.EqOn d' d₀ S := by
    have := hm d hd
    rwa [hrun] at this
  cases r with
  | error e => exact hd'
  | ok a => exact hf d a hd (by rw [hrun]) d' hd'

/-- A property of the files that all programs of a sequence keep. -/
theorem forM_invariant {Q : Files P C → Prop} (h : ∀ i ∈ l, ∀ d, Q d → Q ((g i).run d).2)
    (hQ : Q d) : Q ((l.forM g).run d).2 := by
  induction l generalizing d with
  | nil => exact hQ
  | cons i l ih =>
    have hstep := h i List.mem_cons_self d hQ
    show Q ((g i >>= fun _ => l.forM g).run d).2
    rw [run_bind]
    rcases hrun : (g i).run d with ⟨r, d'⟩
    rw [hrun] at hstep
    cases r with
    | error e => exact hstep
    | ok _ => exact ih (fun j hj => h j (List.mem_cons_of_mem _ hj)) hstep

theorem Keeps.forM (h : ∀ i ∈ l, (g i).Keeps S d₀) : (l.forM g).Keeps S d₀ := fun _ hd =>
  forM_invariant (Q := fun d => Set.EqOn d d₀ S) h hd

theorem run_forM_cons (i : ι) :
    (((i :: l).forM g).run d).1 = .ok () → ((g i).run d).1 = .ok () ∧
      ((l.forM g).run ((g i).run d).2).1 = .ok () ∧
      ((i :: l).forM g).run d = (l.forM g).run ((g i).run d).2 := by
  intro h
  obtain ⟨a, ha⟩ := ok_of_run_bind_ok (m := g i) (f := fun _ => l.forM g) h
  have hrun : ((i :: l).forM g).run d = (l.forM g).run ((g i).run d).2 := run_bind_of_ok ha
  exact ⟨ha, hrun ▸ h, hrun⟩

/-- What each program establishes holds at the end, if the later programs keep it. -/
theorem forM_establishes {Q : ι → Files P C → Prop}
    (hest : ∀ i ∈ l, ∀ d, ((g i).run d).1 = .ok () → Q i ((g i).run d).2)
    (hkeep : l.Pairwise fun i j => ∀ d, Q i d → Q i ((g j).run d).2)
    (h : ((l.forM g).run d).1 = .ok ()) : ∀ i ∈ l, Q i ((l.forM g).run d).2 := by
  induction l generalizing d with
  | nil => exact nofun
  | cons i l ih =>
    obtain ⟨hi, hl, hrun⟩ := run_forM_cons i h
    obtain ⟨hhead, htail⟩ := List.pairwise_cons.mp hkeep
    rw [hrun]
    refine List.forall_mem_cons.mpr ⟨?_, ih (fun j hj => hest j (List.mem_cons_of_mem _ hj)) htail hl⟩
    exact forM_invariant hhead (hest i List.mem_cons_self d hi)

/-- A sequence of programs that all return returns. -/
theorem forM_ok {Q : Files P C → Prop} (hQ : Q d)
    (h : ∀ i ∈ l, ∀ d, Q d → ((g i).run d).1 = .ok () ∧ Q ((g i).run d).2) :
    ((l.forM g).run d).1 = .ok () ∧ Q ((l.forM g).run d).2 := by
  induction l generalizing d with
  | nil => exact ⟨rfl, hQ⟩
  | cons i l ih =>
    obtain ⟨hi, hQ'⟩ := h i List.mem_cons_self d hQ
    have hrun : ((i :: l).forM g).run d = (l.forM g).run ((g i).run d).2 :=
      run_bind_of_ok (m := g i) (f := fun _ => l.forM g) hi
    rw [hrun]
    exact ih hQ' fun j hj => h j (List.mem_cons_of_mem _ hj)

end Sequences

end FileProg

end Kubenyx.Common
