import Kubenyx.Common.Machine

/-!
# Forwarding one direction

Model of `pump` (kubenyx-lb lib.rs:345-376), the loop that copies what one socket yields to
another one until the first ends. The sender is not part of it: it sends, and may close its side,
at any time. A read that times out or is interrupted is only a chance to see that the time for
draining is over.

* `Pump.Carried.step`: what has been written is what was read, at every point of the loop.
* `pump_forwards`: what arrives is a beginning of what was sent, in order; all of it if the loop
  ended at the end of the stream; the loop ends by itself only when draining is over; and once
  the sender is done it gets there in a bounded number of steps.
-/

namespace Kubenyx.Lb

open Kubenyx.Common

/-! ## The loop -/

/-- Why the loop ended (lib.rs:352-372). -/
inductive PumpEnd where
  | eof
  | writeError
  /-- A read timed out, and `drain_expired`. -/
  | expired
  | readError
  deriving DecidableEq

inductive PumpPhase where
  | reading
  | writing (chunk : List UInt8)
  /-- The loop is over, and both halves are shut down (lib.rs:374-375). -/
  | ended (why : PumpEnd)
  deriving DecidableEq

/-- A direction of a connection. -/
structure Pump where
  /-- What the sender has sent since the connection was made. -/
  sent : List UInt8
  /-- The sender has closed its side. -/
  closed : Bool
  /-- What the loop has still to read. -/
  unread : List UInt8
  written : List UInt8
  phase : PumpPhase
  deriving DecidableEq

inductive PumpAct where
  | send (bytes : List UInt8)
  | close
  /-- `Ok(n)`. -/
  | read (n : ℕ)
  /-- `Ok(0)`. -/
  | readEof
  /-- `WouldBlock`, `TimedOut` or `Interrupted`. -/
  | wait
  | readError
  | wrote
  /-- `write_all` fails, after it has written a number of bytes. -/
  | writeError (n : ℕ)

/-- The size of `buf` (lib.rs:350). -/
def bufSize : ℕ := 32 * 1024

/-- Before the first read. -/
def Pump.start : Pump := ⟨[], false, [], [], .reading⟩

/-- A step of the sender or of the loop; `expired` is what `drain_expired` returns then. -/
def Pump.step (expired : Bool) (p : Pump) (act : PumpAct) : Option Pump :=
  match p.phase, act with
  | _, .send bytes =>
    if p.closed then none else some { p with sent := p.sent ++ bytes, unread := p.unread ++ bytes }
  | _, .close => some { p with closed := true }
  | .reading, .read n =>
    if 0 < n ∧ n ≤ bufSize ∧ n ≤ p.unread.length then
      some { p with unread := p.unread.drop n, phase := .writing (p.unread.take n) }
    else none
  | .reading, .readEof =>
    if p.closed ∧ p.unread = [] then some { p with phase := .ended .eof } else none
  | .reading, .wait => some (if expired then { p with phase := .ended .expired } else p)
  | .reading, .readError => some { p with phase := .ended .readError }
  | .writing chunk, .wrote => some { p with written := p.written ++ chunk, phase := .reading }
  | .writing chunk, .writeError n =>
    some { p with written := p.written ++ chunk.take n, phase := .ended .writeError }
  | _, _ => none

/-! ## What it carries -/

/-- What has been sent is what has been written, what is being written, and what is unread; only
    where a write failed may something be missing in between. -/
def Pump.Carried (p : Pump) : Prop :=
  match p.phase with
  | .writing chunk => p.sent = p.written ++ chunk ++ p.unread
  | .ended .writeError => ∃ lost, p.sent = p.written ++ lost ++ p.unread
  | .ended .eof => p.sent = p.written ++ p.unread ∧ p.unread = [] ∧ p.closed = true
  | _ => p.sent = p.written ++ p.unread

variable {p p' : Pump} {act : PumpAct} {expired : Bool}

theorem Pump.carried_start : Pump.start.Carried := rfl

/-- The sender sends something more. -/
theorem Pump.Carried.send (h : p.Carried) (hopen : p.closed = false) (bytes : List UInt8) :
    Pump.Carried { p with sent := p.sent ++ bytes, unread := p.unread ++ bytes } := by
  obtain ⟨sent, closed, unread, written, phase⟩ := p
  cases phase with
  | reading => exact (congrArg (· ++ bytes) h).trans (by simp)
  | writing chunk => exact (congrArg (· ++ bytes) h).trans (by simp)
  | ended why =>
    cases why with
    | eof => exact absurd (h.2.2.symm.trans hopen) (by simp)
    | writeError =>
      obtain ⟨lost, hsent⟩ := h
      exact ⟨lost, (congrArg (· ++ bytes) hsent).trans (by simp)⟩
    | expired => exact (congrArg (· ++ bytes) h).trans (by simp)
    | readError => exact (congrArg (· ++ bytes) h).trans (by simp)

/-- The sender closes its side. -/
theorem Pump.Carried.close (h : p.Carried) : Pump.Carried { p with closed := true } := by
  obtain ⟨sent, closed, unread, written, phase⟩ := p
  cases phase with
  | ended why =>
    cases why with
    | eof => exact ⟨h.1, h.2.1, rfl⟩
    | _ => exact h
  | _ => exact h

theorem Pump.Carried.step (h : p.Carried) (hstep : p.step expired act = some p') : p'.Carried := by
  obtain ⟨sent, closed, unread, written, phase⟩ := p
  unfold Pump.step at hstep
  split at hstep
  case h_1 bytes => -- the sender sends
    split_ifs at hstep with hopen
    obtain rfl := Option.some.inj hstep
    exact h.send (Bool.eq_false_iff.mpr hopen) bytes
  case h_2 => -- the sender closes
    obtain rfl := Option.some.inj hstep
    exact h.close
  case h_3 n hphase => -- a read
    split_ifs at hstep with hn
    obtain rfl := Option.some.inj hstep
    obtain rfl : phase = .reading := hphase
    have hsent : sent = written ++ unread := h
    show sent = written ++ unread.take n ++ unread.drop n
    rw [List.append_assoc, List.take_append_drop]
    exact hsent
  case h_4 hphase => -- the end of the stream
    split_ifs at hstep with hend
    obtain rfl := Option.some.inj hstep
    obtain rfl : phase = .reading := hphase
    exact ⟨h, hend.2, hend.1⟩
  case h_5 hphase => -- a tick
    obtain rfl := Option.some.inj hstep
    obtain rfl : phase = .reading := hphase
    split_ifs <;> exact h
  case h_6 hphase =>
    obtain rfl := Option.some.inj hstep
    obtain rfl : phase = .reading := hphase
    exact h
  case h_7 chunk hphase => -- the chunk is written
    obtain rfl := Option.some.inj hstep
    obtain rfl : phase = .writing chunk := hphase
    exact h
  case h_8 chunk n hphase => -- only a part of it is
    obtain rfl := Option.some.inj hstep
    obtain rfl : phase = .writing chunk := hphase
    refine ⟨chunk.drop n, ?_⟩
    have hsent : sent = written ++ chunk ++ unread := h
    show sent = written ++ chunk.take n ++ chunk.drop n ++ unread
    rw [List.append_assoc written, List.take_append_drop]
    exact hsent
  case h_9 => exact absurd hstep (by simp)

/-- What has been written is a beginning of what was sent. -/
theorem Pump.Carried.beginning (h : p.Carried) : p.written <+: p.sent := by
  obtain ⟨sent, closed, unread, written, phase⟩ := p
  cases phase with
  | reading => exact ⟨unread, Eq.symm h⟩
  | writing chunk =>
    have hsent : sent = written ++ chunk ++ unread := h
    exact ⟨chunk ++ unread, by rw [hsent, List.append_assoc]⟩
  | ended why =>
    cases why with
    | eof => exact ⟨unread, h.1.symm⟩
    | writeError =>
      obtain ⟨lost, hsent⟩ := h
      have hsent : sent = written ++ lost ++ unread := hsent
      exact ⟨lost ++ unread, by rw [hsent, List.append_assoc]⟩
    | expired => exact ⟨unread, Eq.symm h⟩
    | readError => exact ⟨unread, Eq.symm h⟩

/-- At the end of the stream everything has arrived. -/
theorem Pump.Carried.complete (h : p.Carried) (heof : p.phase = .ended .eof) :
    p.written = p.sent ∧ p.closed = true := by
  obtain ⟨sent, closed, unread, written, phase⟩ := p
  obtain rfl : phase = .ended .eof := heof
  obtain ⟨hsent, hunread, hclosed⟩ := h
  have hsent : sent = written ++ unread := hsent
  obtain rfl : unread = [] := hunread
  exact ⟨by rw [hsent, List.append_nil], hclosed⟩

/-- A loop that ends at a tick finds that draining is over. -/
theorem Pump.expired_of_step (hbefore : p.phase ≠ .ended .expired)
    (hstep : p.step expired act = some p') (hafter : p'.phase = .ended .expired) :
    expired = true := by
  have hsame : ∀ {c : Prop} [Decidable c] {q : Pump}, q.phase ≠ .ended .expired →
      (if c then some q else none) ≠ some p' := by
    intro c _ q hq h
    split_ifs at h
    obtain rfl := Option.some.inj h
    exact hq hafter
  unfold Pump.step at hstep
  split at hstep
  case h_1 =>
    split_ifs at hstep
    obtain rfl := Option.some.inj hstep
    exact absurd hafter hbefore
  case h_2 =>
    obtain rfl := Option.some.inj hstep
    exact absurd hafter hbefore
  case h_3 => exact absurd hstep (hsame (by simp))
  case h_4 => exact absurd hstep (hsame (by simp))
  case h_5 => -- the tick
    obtain rfl := Option.some.inj hstep
    split_ifs at hafter with hexp
    · exact hexp
    · exact absurd hafter hbefore
  case h_9 => exact absurd hstep (by simp)
  all_goals
    obtain rfl := Option.some.inj hstep
    simp at hafter

/-! ## Runs -/

/-- A step, with what `drain_expired` returns at that moment. -/
def Pump.timedStep (p : Pump) (act : Bool × PumpAct) : Option Pump := p.step act.1 act.2

variable {acts : List (Bool × PumpAct)}

theorem Pump.Carried.run (h : p.Carried) (hrun : exec Pump.timedStep p acts = some p') :
    p'.Carried :=
  exec_invariant (fun _ _ _ hstep hp => hp.step hstep) hrun h

/-- A loop that has ended at a tick did so when draining was over. -/
theorem Pump.expired_of_run (hrun : exec Pump.timedStep p acts = some p')
    (hbefore : p.phase ≠ .ended .expired) (hafter : p'.phase = .ended .expired) :
    ∃ act ∈ acts, act.1 = true := by
  induction acts generalizing p with
  | nil =>
    obtain rfl := Option.some.inj hrun
    exact absurd hafter hbefore
  | cons act acts ih =>
    obtain ⟨q, hq, hrest⟩ := exec_cons_iff.mp hrun
    by_cases hmid : q.phase = .ended .expired
    · exact ⟨act, List.mem_cons_self, Pump.expired_of_step hbefore hq hmid⟩
    · obtain ⟨b, hb, htrue⟩ := ih hrest hmid
      exact ⟨b, List.mem_cons_of_mem _ hb, htrue⟩

/-- The steps that get the stream on, where nothing fails. -/
def PumpAct.advances : PumpAct → Bool
  | .read _ => true
  | .readEof => true
  | .wrote => true
  | _ => false

/-- A sender that has nothing more to say, and a loop that meets neither an error nor the end of
    draining. -/
def Undisturbed (act : Bool × PumpAct) : Prop :=
  act.2.advances = true ∨ act.1 = false ∧ act.2 = .wait

/-- How many steps the loop has still to make. -/
def Pump.left (p : Pump) : ℕ :=
  match p.phase with
  | .reading => 2 * p.unread.length + 1
  | .writing _ => 2 * p.unread.length + 2
  | .ended _ => 0

theorem Pump.left_step (hstep : p.step expired act = some p') (hact : act.advances = true) :
    p'.left + 1 ≤ p.left := by
  obtain ⟨sent, closed, unread, written, phase⟩ := p
  cases act <;> simp only [PumpAct.advances, Bool.false_eq_true] at hact
  all_goals cases phase <;> simp only [Pump.step, reduceCtorEq] at hstep
  case read.reading n =>
    split_ifs at hstep with hn
    obtain rfl := Option.some.inj hstep
    simp only [Pump.left, List.length_drop]
    omega
  case readEof.reading =>
    split_ifs at hstep
    obtain rfl := Option.some.inj hstep
    simp [Pump.left]
  case wrote.writing chunk =>
    obtain rfl := Option.some.inj hstep
    simp [Pump.left]

/-- An undisturbed run gets on by at most as many steps as are left. -/
theorem Pump.left_run (hrun : exec Pump.timedStep p acts = some p')
    (hacts : ∀ act ∈ acts, Undisturbed act) :
    p'.left + acts.countP (fun act => act.2.advances) ≤ p.left := by
  induction acts generalizing p with
  | nil =>
    obtain rfl := Option.some.inj hrun
    simp
  | cons act acts ih =>
    obtain ⟨q, hq, hrest⟩ := exec_cons_iff.mp hrun
    obtain ⟨hact, hacts⟩ := List.forall_mem_cons.mp hacts
    have hafter := ih hrest hacts
    rcases hact with hadvances | ⟨hnot, hwait⟩
    · have hone := Pump.left_step hq hadvances
      rw [List.countP_cons, hadvances, if_pos rfl]
      omega
    · -- a tick changes nothing
      have hsame : q = p := by
        obtain ⟨e, a⟩ := act
        obtain rfl : e = false := hnot
        obtain rfl : a = .wait := hwait
        obtain ⟨sent, closed, unread, written, phase⟩ := p
        cases phase <;> simp only [Pump.timedStep, Pump.step, reduceCtorEq] at hq
        exact (Option.some.inj hq).symm
      rw [List.countP_cons, hwait]
      rw [hsame] at hafter
      simpa [PumpAct.advances] using hafter

/-- As long as the loop has not ended, a sender that has closed its side lets it go on. -/
theorem Pump.goes_on (hclosed : p.closed = true) (hphase : ∀ why, p.phase ≠ .ended why) :
    ∃ act p', act.advances = true ∧ p.step expired act = some p' := by
  obtain ⟨sent, closed, unread, written, phase⟩ := p
  obtain rfl : closed = true := hclosed
  cases phase with
  | reading =>
    cases unread with
    | nil => exact ⟨.readEof, ⟨sent, true, [], written, .ended .eof⟩, rfl, by simp [Pump.step]⟩
    | cons b bs =>
      refine ⟨.read 1, ⟨sent, true, bs, written, .writing [b]⟩, rfl, ?_⟩
      have hsize : 1 ≤ bufSize := by decide
      simp [Pump.step, hsize]
  | writing chunk => exact ⟨.wrote, _, rfl, rfl⟩
  | ended why => exact absurd rfl (hphase why)

/-- Forwarding one direction. In every run of the loop and the sender, what has been written is a
    beginning of what was sent, in its order and without gaps; when the loop has ended at the end of
    the stream it is all of it, and the sender has closed its side; and the loop does not end at a
    tick unless draining was over by then. Once the sender has closed its side, a loop that meets
    neither an error nor the end of draining can go on until it ends, and gets on by at most two
    steps for each byte that is left, and two more. -/
theorem pump_forwards (h : exec Pump.timedStep Pump.start acts = some p) :
    p.written <+: p.sent ∧
      (p.phase = .ended .eof → p.written = p.sent ∧ p.closed = true) ∧
      (p.phase = .ended .expired → ∃ act ∈ acts, act.1 = true) ∧
      (p.closed = true → (∀ why, p.phase ≠ .ended why) →
        ∃ act p', act.advances = true ∧ p.step false act = some p') ∧
      ∀ more p', exec Pump.timedStep p more = some p' → (∀ act ∈ more, Undisturbed act) →
        more.countP (fun act => act.2.advances) ≤ 2 * p.unread.length + 2 := by
  have hcarried : p.Carried := Pump.carried_start.run h
  refine ⟨hcarried.beginning, hcarried.complete,
    Pump.expired_of_run h (by simp [Pump.start]), Pump.goes_on, fun more p' hmore hquiet => ?_⟩
  have hleft := Pump.left_run hmore hquiet
  have hbound : p.left ≤ 2 * p.unread.length + 2 := by
    unfold Pump.left
    split <;> omega
  omega

/-- Three bytes in two chunks, and the sender closes its side while the second is written. -/
theorem pump_forwards_two_chunks :
    let acts : List (Bool × PumpAct) := [(false, .send [1, 2, 3]), (false, .read 2), (false, .wrote),
      (false, .wait), (false, .read 1), (false, .close), (false, .wrote), (false, .readEof)]
    ∃ p, exec Pump.timedStep Pump.start acts = some p ∧ p.written = [1, 2, 3] ∧
      p.written = p.sent := by
  intro acts
  have hrun : exec Pump.timedStep Pump.start acts =
      some ⟨[1, 2, 3], true, [], [1, 2, 3], .ended .eof⟩ := by decide
  exact ⟨_, hrun, rfl, ((pump_forwards hrun).2.1 rfl).1⟩

end Kubenyx.Lb
