import Kubenyx.Common.Machine
import Kubenyx.Common.Slice
import Kubenyx.Ready.Args

/-!
# The readiness wrapper at work

Model of `run` from the start of the component on, of `check`, `exit_code` and the signal handler
(kubenyx-ready lib.rs:28-39, 150-199, 307-353). The component, the signals and what the calls of the
system return come in any order with the steps of the wrapper. A signal that comes before
its handler is installed ends the wrapper.

* `check_error_iff`: when the probe dies instead of giving an answer.
* `inv_step`: what every step of wrapper, component and signals keeps.
* `left_step`: once the component has ended, the wrapper has few steps left.
* `wrapper_run`: the readiness message, the exit code, the signals and the end of the wrapper,
  in every run.
-/

namespace Kubenyx.Ready

open Kubenyx.Common

/-! ## The probe at work -/

/-- What a probe finds. -/
structure Endpoint where
  /-- A Unix socket accepts. -/
  unix : Text → Bool
  /-- An address accepts. -/
  tcp : Text → Bool
  /-- `ServerName::try_from` takes the host. -/
  serverName : Text → Bool
  /-- `ClientConnection::new` succeeds. -/
  session : Bool
  /-- The request is written. -/
  write : List UInt8 → Bool
  /-- The first read, of at most 64 bytes; `none` for an error. -/
  read : Option (List UInt8)

namespace Probe

/-- The address that is dialled (lib.rs:155). -/
def address (p : Probe) : Text := p.host ++ ':' :: decimal p.port

/-- The request (lib.rs:163-166). -/
def request (p : Probe) : List UInt8 :=
  utf8 ("GET ".toList ++ p.path ++ " HTTP/1.1\r\nHost: ".toList ++ p.host ++
    "\r\nConnection: close\r\n\r\n".toList)

/-- `check` (lib.rs:151-199); an error is what `die` prints. -/
def check (p : Probe) (e : Endpoint) : Except Text Bool :=
  if p.port = 0 then .ok (e.unix p.host)
  else if !e.tcp p.address then .ok false
  else if p.tls.isSome && !e.serverName p.host then .error "bad server name".toList
  else if p.tls.isSome && !e.session then .ok false
  else if !e.write p.request then .ok false
  else
    match e.read with
    | none => .ok false
    | some buf => .ok (12 ≤ buf.length && slice buf 9 12 = utf8 "200".toList)

/-- A connection over TLS is made to a host that is no name for a certificate. -/
def BadName (p : Probe) (e : Endpoint) : Prop :=
  p.port ≠ 0 ∧ p.tls.isSome = true ∧ e.tcp p.address = true ∧ e.serverName p.host = false

theorem check_error_iff {p : Probe} {e : Endpoint} :
    (∃ msg, p.check e = .error msg) ↔ p.BadName e := by
  unfold check BadName
  by_cases hport : p.port = 0
  · simp [hport]
  by_cases htcp : e.tcp p.address = true
  swap
  · simp [hport, htcp]
  by_cases hname : (p.tls.isSome && !e.serverName p.host) = true
  · have hboth : p.tls.isSome = true ∧ e.serverName p.host = false := by simpa using hname
    simp [hport, htcp, hboth]
  · refine iff_of_false ?_ fun hbad => hname (by simp [hbad.2.1, hbad.2.2.2])
    rw [if_neg hport, if_neg (by simp [htcp]), if_neg hname]
    rintro ⟨msg, h⟩
    split_ifs at h
    split at h <;> cases h

end Probe

/-- Nothing accepts. -/
def Endpoint.down : Endpoint := ⟨fun _ => false, fun _ => false, fun _ => false, false, fun _ => false, none⟩

theorem Probe.check_down (p : Probe) : p.check .down = .ok false := by
  simp [check, Endpoint.down]

/-! ## The machine -/

/-- The signals that are forwarded. -/
inductive Signal where
  | term
  | int
  deriving DecidableEq, Repr

/-- `ExitStatus`: how a component ended. -/
inductive Status where
  | exited (code : ℕ)
  | signaled (signal : ℕ)
  deriving DecidableEq, Repr

/-- `exit_code` (lib.rs:348-353). -/
def exitCode : Status → ℕ
  | .exited code => code
  | .signaled signal => 128 + signal

/-- The component. An ended one stays in the process table until it is waited for. -/
inductive Child where
  | absent
  | running
  | ended (st : Status)
  | reaped (st : Status)
  deriving DecidableEq, Repr

/-- Where the wrapper is. -/
inductive Pc where
  | spawn
  | store
  | handleTerm
  | handleInt
  | tryWait
  | check
  | notify
  | wait
  | sleep
  /-- Before `exit`. -/
  | exit (code : ℕ)
  deriving DecidableEq, Repr

/-- How the wrapper ended. -/
inductive End where
  | code (c : ℕ)
  | killed (s : Signal)
  deriving DecidableEq, Repr

/-- The wrapper and the component. -/
structure Wrapper where
  pc : Pc
  child : Child
  /-- `CHILD_PID` is not 0. -/
  pid : Bool
  /-- The handlers that are installed. -/
  handled : List Signal
  /-- How often `READY=1` was sent. -/
  ready : ℕ
  /-- The signals for which the handler ran. -/
  caught : List Signal
  /-- The signals that the handler sent to the component. -/
  passed : List Signal
  /-- The signals that the handler sent to the pid of the component after that was reaped. -/
  stray : List Signal
  ended : Option End
  deriving DecidableEq

def Wrapper.init : Wrapper := ⟨.spawn, .absent, false, [], 0, [], [], [], none⟩

/-- A step of the wrapper, with what the call returns, or an event. -/
inductive Act where
  | spawn (ok : Bool)
  | store
  | handleTerm
  | handleInt
  | tryWait (ok : Bool)
  /-- `probe.check()`, with what it finds. -/
  | check (e : Endpoint)
  | notify
  | wait (ok : Bool)
  | sleep
  | exit
  /-- The wrapper gets a signal. -/
  | signal (s : Signal)
  /-- The component ends. -/
  | childEnds (st : Status)

/-- The wrapper does it. -/
def Act.own : Act → Bool
  | signal _ => false
  | childEnds _ => false
  | _ => true

namespace Wrapper

/-- `forward_signal` (lib.rs:30-37). -/
def forward (w : Wrapper) (s : Signal) : Wrapper :=
  match w.pid, w.child with
  | false, _ => { w with caught := w.caught ++ [s] }
  | true, .reaped _ => { w with caught := w.caught ++ [s], stray := w.stray ++ [s] }
  | true, _ => { w with caught := w.caught ++ [s], passed := w.passed ++ [s] }

/-- The wrapper gets a signal: the handler runs, or the default action ends it. -/
def signal (w : Wrapper) (s : Signal) : Wrapper :=
  if s ∈ w.handled then w.forward s else { w with ended := some (.killed s) }

/-- `try_wait` or `wait` has found the component ended: its exit code is on its way. -/
def reap (w : Wrapper) (st : Status) : Wrapper :=
  { w with child := .reaped st, pc := .exit (exitCode st) }

/-- The step of the wrapper at its place, or an event (lib.rs:307-345). -/
def act (p : Probe) (w : Wrapper) : Act → Option Wrapper
  | .spawn ok =>
    if w.pc = .spawn then
      some (if ok then { w with child := .running, pc := .store } else { w with ended := some (.code 2) })
    else none
  | .store => if w.pc = .store then some { w with pid := true, pc := .handleTerm } else none
  | .handleTerm =>
    if w.pc = .handleTerm then some { w with handled := [.term], pc := .handleInt } else none
  | .handleInt =>
    if w.pc = .handleInt then some { w with handled := [.int, .term], pc := .tryWait } else none
  | .tryWait ok =>
    if w.pc = .tryWait then
      match ok, w.child with
      | true, .ended st => some (w.reap st)
      | _, _ => some { w with pc := .check }
    else none
  | .check e =>
    if w.pc = .check then
      match p.check e with
      | .error _ => some { w with ended := some (.code 2) }
      | .ok true => some { w with pc := .notify }
      | .ok false => some { w with pc := .sleep }
    else none
  | .notify => if w.pc = .notify then some { w with ready := w.ready + 1, pc := .wait } else none
  | .wait ok =>
    if w.pc = .wait then
      match ok, w.child with
      | false, _ => some { w with pc := .exit 2 }
      | true, .ended st => some (w.reap st)
      | true, _ => none
    else none
  | .sleep => if w.pc = .sleep then some { w with pc := .tryWait } else none
  | .exit =>
    match w.pc with
    | .exit code => some { w with ended := some (.code code) }
    | _ => none
  | .signal s => some (w.signal s)
  | .childEnds st => if w.child = .running then some { w with child := .ended st } else none

/-- Nothing comes after the end of the wrapper. -/
def step (p : Probe) (w : Wrapper) (a : Act) : Option Wrapper :=
  if w.ended = none then w.act p a else none

/-- The readiness message that is due. -/
def due (w : Wrapper) : ℕ := if w.pc = .notify then 1 else 0

/-- The signals that the wrapper got, up to the one that killed it. -/
def received (w : Wrapper) : List Signal :=
  w.caught ++ (match w.ended with | some (.killed s) => [s] | _ => [])

/-- The handlers that are installed at a place. -/
def Pc.handlers : Pc → List Signal
  | .spawn => []
  | .store => []
  | .handleTerm => []
  | .handleInt => [.term]
  | _ => [.int, .term]

/-- What holds in every run. -/
structure Inv (w : Wrapper) : Prop where
  handled : w.handled = Pc.handlers w.pc
  pid : w.pid = true ∨ w.pc = .spawn ∨ w.pc = .store
  absent : w.child = .absent ↔ w.pc = .spawn
  reaped : ∀ st, w.child = .reaped st → w.pc = .exit (exitCode st)
  forwarded : w.passed ++ w.stray = w.caught
  stray : w.stray ≠ [] → ∃ st, w.child = .reaped st
  killed : ∀ s, w.ended = some (.killed s) → s ∉ w.handled
  ready : w.ready + w.due ≤ 1
  early : w.pc ≠ .wait → (∀ c, w.pc ≠ .exit c) → w.ready = 0

end Wrapper

/-- The signal that an event brings. -/
def Act.signal? : Act → Option Signal
  | signal s => some s
  | _ => none

/-- The probe succeeds. -/
def Act.succeeds (p : Probe) : Act → Bool
  | check e =>
    match p.check e with
    | .ok found => found
    | .error _ => false
  | _ => false

/-- The wrapper gives up: the component cannot be started or waited for, or the probe dies. -/
def Act.GivesUp (p : Probe) : Act → Prop
  | spawn ok => ok = false
  | check e => p.BadName e
  | wait ok => ok = false
  | _ => False

/-- A `try_wait` that fails, which the loop takes for a component that runs. -/
def Act.missed : Act → Bool
  | tryWait ok => !ok
  | _ => false

namespace Wrapper

variable {p : Probe} {w w' : Wrapper} {a : Act}

/-- What a step does. -/
inductive Moves (p : Probe) (w : Wrapper) : Act → Wrapper → Prop
  | started (hpc : w.pc = .spawn) : Moves p w (.spawn true) { w with child := .running, pc := .store }
  | notStarted (hpc : w.pc = .spawn) : Moves p w (.spawn false) { w with ended := some (.code 2) }
  | stored (hpc : w.pc = .store) : Moves p w .store { w with pid := true, pc := .handleTerm }
  | handledTerm (hpc : w.pc = .handleTerm) :
      Moves p w .handleTerm { w with handled := [.term], pc := .handleInt }
  | handledInt (hpc : w.pc = .handleInt) :
      Moves p w .handleInt { w with handled := [.int, .term], pc := .tryWait }
  | foundEnded {st : Status} (hpc : w.pc = .tryWait) (hchild : w.child = .ended st) :
      Moves p w (.tryWait true) (w.reap st)
  | foundRunning {ok : Bool} (hpc : w.pc = .tryWait)
      (hchild : ok = true → ∀ st, w.child ≠ .ended st) : Moves p w (.tryWait ok) { w with pc := .check }
  | probeDied {e : Endpoint} (hpc : w.pc = .check) (hname : p.BadName e) :
      Moves p w (.check e) { w with ended := some (.code 2) }
  | probed {e : Endpoint} (hpc : w.pc = .check) (hcheck : p.check e = .ok true) :
      Moves p w (.check e) { w with pc := .notify }
  | notYet {e : Endpoint} (hpc : w.pc = .check) (hcheck : p.check e = .ok false) :
      Moves p w (.check e) { w with pc := .sleep }
  | notified (hpc : w.pc = .notify) : Moves p w .notify { w with ready := w.ready + 1, pc := .wait }
  | waitFailed (hpc : w.pc = .wait) : Moves p w (.wait false) { w with pc := .exit 2 }
  | waited {st : Status} (hpc : w.pc = .wait) (hchild : w.child = .ended st) :
      Moves p w (.wait true) (w.reap st)
  | slept (hpc : w.pc = .sleep) : Moves p w .sleep { w with pc := .tryWait }
  | exited {c : ℕ} (hpc : w.pc = .exit c) : Moves p w .exit { w with ended := some (.code c) }
  | signalled (s : Signal) : Moves p w (.signal s) (w.signal s)
  | childEnded (st : Status) (hchild : w.child = .running) :
      Moves p w (.childEnds st) { w with child := .ended st }

theorem step_cases (h : w.step p a = some w') : w.ended = none ∧ Moves p w a w' := by
  unfold step at h
  split_ifs at h with hlive
  refine ⟨hlive, ?_⟩
  cases a with
  | signal s =>
    cases h
    exact .signalled s
  | spawn ok =>
    simp only [act] at h
    split_ifs at h with hpc hok
    · subst hok
      cases h
      exact .started hpc
    · obtain rfl : ok = false := Bool.eq_false_iff.mpr hok
      cases h
      exact .notStarted hpc
  | tryWait ok =>
    simp only [act] at h
    split_ifs at h with hpc
    split at h
    · next st hchild =>
      cases h
      exact .foundEnded hpc ‹_›
    · next hother =>
      cases h
      exact .foundRunning hpc fun hok st => hother st hok
  | check e =>
    simp only [act] at h
    split_ifs at h with hpc
    split at h
    · next msg hcheck =>
      cases h
      exact .probeDied hpc (Probe.check_error_iff.mp ⟨msg, hcheck⟩)
    · next hcheck =>
      cases h
      exact .probed hpc hcheck
    · next hcheck =>
      cases h
      exact .notYet hpc hcheck
  | wait ok =>
    simp only [act] at h
    split_ifs at h with hpc
    split at h
    · cases h
      exact .waitFailed hpc
    · cases h
      exact .waited hpc ‹_›
    · cases h
  | exit =>
    simp only [act] at h
    split at h
    · cases h
      exact .exited ‹_›
    · cases h
  | childEnds st =>
    simp only [act] at h
    split_ifs at h with hrun
    cases h
    exact .childEnded st hrun
  | store =>
    simp only [act] at h
    split_ifs at h with hpc
    cases h
    exact .stored hpc
  | handleTerm =>
    simp only [act] at h
    split_ifs at h with hpc
    cases h
    exact .handledTerm hpc
  | handleInt =>
    simp only [act] at h
    split_ifs at h with hpc
    cases h
    exact .handledInt hpc
  | notify =>
    simp only [act] at h
    split_ifs at h with hpc
    cases h
    exact .notified hpc
  | sleep =>
    simp only [act] at h
    split_ifs at h with hpc
    cases h
    exact .slept hpc

theorem inv_init : Inv .init where
  handled := rfl
  pid := Or.inr (Or.inl rfl)
  absent := ⟨fun _ => rfl, fun _ => rfl⟩
  reaped := nofun
  forwarded := rfl
  stray h := absurd rfl h
  killed := nofun
  ready := Nat.zero_le 1
  early _ _ := rfl

/-- The signal goes to the component, which runs or is still in the process table. -/
theorem forward_of_present (hpid : w.pid = true) (hchild : ∀ st, w.child ≠ .reaped st) (s : Signal) :
    w.forward s = { w with caught := w.caught ++ [s], passed := w.passed ++ [s] } := by
  unfold forward
  split
  · simp_all
  · next st _ hreaped => exact (hchild st hreaped).elim
  · rfl

theorem forward_of_reaped (hpid : w.pid = true) {st : Status} (hchild : w.child = .reaped st)
    (s : Signal) : w.forward s = { w with caught := w.caught ++ [s], stray := w.stray ++ [s] } := by
  unfold forward
  split
  · simp_all
  · rfl
  · next hother => exact (hother st hchild).elim

theorem Inv.stray_eq_nil (hw : Inv w) (hchild : ∀ st, w.child ≠ .reaped st) : w.stray = [] := by
  by_contra hne
  obtain ⟨st, hst⟩ := hw.stray hne
  exact hchild st hst

theorem Inv.not_reaped (hw : Inv w) (hpc : ∀ c, w.pc ≠ .exit c) (st : Status) : w.child ≠ .reaped st :=
  fun h => hpc _ (hw.reaped st h)

/-- A signal. -/
theorem inv_signal (hw : Inv w) (s : Signal) : Inv (w.signal s) := by
  unfold signal
  split_ifs with hhandled
  · have hpid : w.pid = true := by
      rcases hw.pid with hpid | hpc | hpc
      · exact hpid
      · rw [hw.handled, hpc] at hhandled
        cases hhandled
      · rw [hw.handled, hpc] at hhandled
        cases hhandled
    by_cases hchild : ∃ st, w.child = .reaped st
    · obtain ⟨st, hchild⟩ := hchild
      rw [forward_of_reaped hpid hchild]
      refine { hw with forwarded := ?_, stray := fun _ => ⟨st, hchild⟩ }
      rw [← List.append_assoc, hw.forwarded]
    · push Not at hchild
      rw [forward_of_present hpid hchild]
      refine { hw with forwarded := ?_ }
      rw [← hw.forwarded, hw.stray_eq_nil hchild, List.append_nil, List.append_nil]
  · refine { hw with killed := fun t ht => ?_ }
    obtain rfl : s = t := End.killed.inj (Option.some.inj ht)
    exact hhandled

/-- Between the start of the component and the loop. -/
theorem Inv.setup (hw : Inv w) (hlive : w.ended = none)
    (hpc : w.pc ∈ [Pc.store, .handleTerm, .handleInt]) {pc : Pc} {pid : Bool} {handled : List Signal}
    (hnext : pc ∈ [Pc.handleTerm, .handleInt, .tryWait]) (hpid : pid = true)
    (hhandled : handled = Pc.handlers pc) :
    Inv { w with pc := pc, pid := pid, handled := handled } := by
  have hplace : w.pc ≠ .spawn ∧ w.pc ≠ .wait ∧ ∀ c, w.pc ≠ .exit c := by
    simp only [List.mem_cons, List.not_mem_nil, or_false] at hpc
    rcases hpc with hpc | hpc | hpc <;> simp [hpc]
  have hnotify : pc ≠ .notify ∧ pc ≠ .spawn := by
    constructor <;> rintro rfl <;> exact absurd hnext (by decide)
  obtain ⟨hspawn, hwait, hexit⟩ := hplace
  have hready : w.ready = 0 := hw.early hwait hexit
  exact { hw with
    handled := hhandled
    pid := Or.inl hpid
    absent := ⟨fun h => (hspawn (hw.absent.mp h)).elim, fun h => (hnotify.2 h).elim⟩
    reaped := fun st h => (hw.not_reaped hexit st h).elim
    killed := fun s h => absurd (hlive.symm.trans h) nofun
    ready := by
      show w.ready + (if pc = .notify then 1 else 0) ≤ 1
      rw [if_neg hnotify.1, hready]
      exact Nat.zero_le 1
    early := fun _ _ => hready }

/-- In the loop, the component was started and is not waited for, and `READY=1` is still to come. -/
theorem Inv.goto (hw : Inv w) (hpc : w.pc ∈ [Pc.tryWait, .check, .sleep]) {pc : Pc}
    (hnext : pc ∈ [Pc.tryWait, .check, .sleep, .notify]) : Inv { w with pc := pc } := by
  have hplace : w.pc ≠ .spawn ∧ w.pc ≠ .store ∧ w.pc ≠ .wait ∧ (∀ c, w.pc ≠ .exit c) ∧
      Pc.handlers w.pc = [.int, .term] := by
    simp only [List.mem_cons, List.not_mem_nil, or_false] at hpc
    rcases hpc with hpc | hpc | hpc <;> simp [hpc, Pc.handlers]
  have hplace' : pc ≠ .spawn ∧ (∀ c, pc ≠ .exit c) ∧ Pc.handlers pc = [.int, .term] := by
    simp only [List.mem_cons, List.not_mem_nil, or_false] at hnext
    rcases hnext with rfl | rfl | rfl | rfl <;> simp [Pc.handlers]
  obtain ⟨hspawn, hstore, hwait, hexit, hhandlers⟩ := hplace
  have hready : w.ready = 0 := hw.early hwait hexit
  exact { hw with
    handled := hw.handled.trans (hhandlers.trans hplace'.2.2.symm)
    pid := Or.inl (hw.pid.resolve_right (not_or.mpr ⟨hspawn, hstore⟩))
    absent := ⟨fun h => (hspawn (hw.absent.mp h)).elim, fun h => (hplace'.1 h).elim⟩
    reaped := fun st h => (hexit _ (hw.reaped st h)).elim
    ready := by
      show w.ready + (if pc = .notify then 1 else 0) ≤ 1
      split_ifs <;> omega
    early := fun _ _ => hready }

/-- The component is waited for. -/
theorem Inv.reap (hw : Inv w) (hpc : w.pc = .tryWait ∨ w.pc = .wait) (st : Status) :
    Inv (w.reap st) := by
  have hhandlers : Pc.handlers w.pc = [.int, .term] := by
    rcases hpc with hpc | hpc <;> rw [hpc] <;> rfl
  have hplace : w.pc ≠ .spawn ∧ w.pc ≠ .store := by
    rcases hpc with hpc | hpc <;> simp [hpc]
  have hready := hw.ready
  exact { hw with
    handled := hw.handled.trans hhandlers
    pid := Or.inl (hw.pid.resolve_right (not_or.mpr hplace))
    absent := ⟨nofun, nofun⟩
    reaped := fun st' h => by
      obtain rfl := Child.reaped.inj h
      rfl
    stray := fun _ => ⟨st, rfl⟩
    ready := (Nat.le_add_right _ _).trans hready
    early := fun _ h => (h _ rfl).elim }

theorem inv_step (hw : Inv w) (h : w.step p a = some w') : Inv w' := by
  obtain ⟨hlive, h⟩ := step_cases h
  cases h with
  | signalled s => exact inv_signal hw s
  | childEnded st hrun =>
    exact { hw with
      absent := ⟨nofun, fun h => absurd (hw.absent.mpr h) (by simp [hrun])⟩
      reaped := nofun
      stray := fun hne => (hne (hw.stray_eq_nil (by simp [hrun]))).elim }
  | started hpc =>
    have hexit : ∀ c, w.pc ≠ .exit c := by simp [hpc]
    have hready : w.ready = 0 := hw.early (by simp [hpc]) hexit
    exact { hw with
      handled := by rw [hw.handled, hpc]; rfl
      pid := Or.inr (Or.inr rfl)
      absent := ⟨nofun, nofun⟩
      reaped := nofun
      stray := fun hne => (hne (hw.stray_eq_nil (hw.not_reaped hexit))).elim
      ready := hready.le.trans (Nat.zero_le 1)
      early := fun _ _ => hready }
  | notStarted => exact { hw with killed := nofun }
  | stored hpc =>
    exact hw.setup hlive (by simp [hpc]) (by decide) rfl (by rw [hw.handled, hpc]; rfl)
  | handledTerm hpc =>
    exact hw.setup hlive (by simp [hpc]) (by decide) (hw.pid.resolve_right (by simp [hpc])) rfl
  | handledInt hpc =>
    exact hw.setup hlive (by simp [hpc]) (by decide) (hw.pid.resolve_right (by simp [hpc])) rfl
  | foundEnded hpc => exact hw.reap (Or.inl hpc) _
  | foundRunning hpc => exact hw.goto (by simp [hpc]) (by decide)
  | probeDied => exact { hw with killed := nofun }
  | probed hpc => exact hw.goto (by simp [hpc]) (by decide)
  | notYet hpc => exact hw.goto (by simp [hpc]) (by decide)
  | notified hpc =>
    have hexit : ∀ c, w.pc ≠ .exit c := by simp [hpc]
    exact { hw with
      handled := by rw [hw.handled, hpc]; rfl
      pid := Or.inl (hw.pid.resolve_right (by simp [hpc]))
      absent := ⟨fun h => absurd (hw.absent.mp h) (by simp [hpc]), nofun⟩
      reaped := fun st h => (hw.not_reaped hexit st h).elim
      ready := (congrArg (· + 1) (hw.early (by simp [hpc]) hexit)).le
      early := fun h _ => (h rfl).elim }
  | waitFailed hpc =>
    have hexit : ∀ c, w.pc ≠ .exit c := by simp [hpc]
    exact { hw with
      handled := by rw [hw.handled, hpc]; rfl
      pid := Or.inl (hw.pid.resolve_right (by simp [hpc]))
      absent := ⟨fun h => absurd (hw.absent.mp h) (by simp [hpc]), nofun⟩
      reaped := fun st h => (hw.not_reaped hexit st h).elim
      ready := (Nat.le_add_right _ _).trans hw.ready
      early := fun _ h => (h _ rfl).elim }
  | waited hpc => exact hw.reap (Or.inr hpc) _
  | slept hpc => exact hw.goto (by simp [hpc]) (by decide)
  | exited => exact { hw with killed := nofun }

/-! ## What the steps add up to -/

theorem signal_frame (w : Wrapper) (s : Signal) :
    (w.signal s).pc = w.pc ∧ (w.signal s).ready = w.ready ∧ (w.signal s).child = w.child ∧
      ∀ c, (w.signal s).ended = some (.code c) → w.ended = some (.code c) := by
  unfold signal forward
  split_ifs
  · split <;> exact ⟨rfl, rfl, rfl, fun _ => id⟩
  · exact ⟨rfl, rfl, rfl, nofun⟩

theorem received_signal (hlive : w.ended = none) (s : Signal) :
    (w.signal s).received = w.caught ++ [s] := by
  unfold signal forward
  split_ifs
  · split <;> simp [received, hlive]
  · rfl

/-- The message is sent for a probe that succeeds, and for nothing else. -/
theorem step_due (h : w.step p a = some w') :
    w'.ready + w'.due = w.ready + w.due + if a.succeeds p then 1 else 0 := by
  obtain ⟨-, h⟩ := step_cases h
  unfold due Act.succeeds
  cases h with
  | signalled s =>
    obtain ⟨hpc, hready, -⟩ := w.signal_frame s
    simp [hpc, hready]
  | childEnded => simp
  | notStarted => simp
  | @probeDied e hpc hname =>
    obtain ⟨msg, hcheck⟩ := Probe.check_error_iff.mpr hname
    simp [hpc, hcheck]
  | probed hpc hcheck => simp [hpc, hcheck]
  | notYet hpc hcheck => simp [hpc, hcheck]
  | exited => simp
  | _ hpc => simp [hpc, reap]

/-- No signal gets lost, unless it ends the wrapper. -/
theorem step_received (h : w.step p a = some w') : w'.received = w.received ++ a.signal?.toList := by
  obtain ⟨hlive, h⟩ := step_cases h
  have hreceived : w.received = w.caught := by
    unfold received
    rw [hlive, List.append_nil]
  rw [hreceived]
  cases h with
  | signalled s => exact received_signal hlive s
  | _ => simp [received, Act.signal?, reap, hlive]

/-- The exit code is that of the component, which is waited for; or it is 2, and the wrapper has
    given up. -/
def Coded (gaveUp : Prop) (w : Wrapper) (c : ℕ) : Prop :=
  (∃ st, w.child = .reaped st ∧ c = exitCode st) ∨ c = 2 ∧ gaveUp

/-- This is so of an exit code that is on its way, or given. -/
structure Faithful (gaveUp : Prop) (w : Wrapper) : Prop where
  exiting : ∀ c, w.pc = .exit c → Coded gaveUp w c
  exited : ∀ c, w.ended = some (.code c) → Coded gaveUp w c

theorem faithful_step {gaveUp : Prop} (hf : Faithful gaveUp w) (ha : a.GivesUp p → gaveUp)
    (h : w.step p a = some w') : Faithful gaveUp w' := by
  obtain ⟨hlive, h⟩ := step_cases h
  have hdead : ∀ c, w.ended ≠ some (.code c) := fun c h => absurd (hlive.symm.trans h) nofun
  cases h with
  | signalled s =>
    obtain ⟨hpc, -, hchild, hended⟩ := w.signal_frame s
    refine ⟨fun c hc => ?_, fun c hc => (hdead c (hended c hc)).elim⟩
    unfold Coded
    rw [hchild]
    exact hf.exiting c (hpc ▸ hc)
  | exited hpc =>
    refine ⟨hf.exiting, fun c hc => ?_⟩
    obtain rfl := End.code.inj (Option.some.inj hc)
    exact hf.exiting _ hpc
  | foundEnded =>
    exact ⟨fun c hc => Or.inl ⟨_, rfl, (Pc.exit.inj hc).symm⟩, fun c hc => (hdead c hc).elim⟩
  | waited =>
    exact ⟨fun c hc => Or.inl ⟨_, rfl, (Pc.exit.inj hc).symm⟩, fun c hc => (hdead c hc).elim⟩
  | childEnded st hrun =>
    refine ⟨fun c hc => (hf.exiting c hc).imp_left ?_, fun c hc => (hdead c hc).elim⟩
    rintro ⟨st', hst', -⟩
    rw [hrun] at hst'
    cases hst'
  | notStarted hpc =>
    refine ⟨fun c hc => absurd (hpc.symm.trans hc) nofun, fun c hc => ?_⟩
    exact Or.inr ⟨(End.code.inj (Option.some.inj hc)).symm, ha rfl⟩
  | probeDied hpc hname =>
    refine ⟨fun c hc => absurd (hpc.symm.trans hc) nofun, fun c hc => ?_⟩
    exact Or.inr ⟨(End.code.inj (Option.some.inj hc)).symm, ha hname⟩
  | waitFailed =>
    exact ⟨fun c hc => Or.inr ⟨(Pc.exit.inj hc).symm, ha rfl⟩, fun c hc => (hdead c hc).elim⟩
  | _ => exact ⟨nofun, fun c hc => (hdead c hc).elim⟩

/-- The steps from a place to the end, once the component has ended. -/
def Pc.left : Pc → ℕ
  | .spawn => 0
  | .store => 5
  | .handleTerm => 4
  | .handleInt => 3
  | .tryWait => 2
  | .check => 4
  | .notify => 3
  | .wait => 2
  | .sleep => 3
  | .exit _ => 1

def left (w : Wrapper) : ℕ := if w.ended = none then Pc.left w.pc else 0

/-- The component has ended. -/
def Over (w : Wrapper) : Prop := ∃ st, w.child = .ended st ∨ w.child = .reaped st

theorem left_step (hw : Inv w) (hover : Over w) (h : w.step p a = some w') :
    Over w' ∧ w'.left + (if a.own then 1 else 0) ≤ w.left + if a.missed then 3 else 0 := by
  obtain ⟨hlive, h⟩ := step_cases h
  have hreaped : (∀ c, w.pc ≠ .exit c) → ∃ st, w.child = .ended st := by
    intro hexit
    obtain ⟨st, hst | hst⟩ := hover
    · exact ⟨st, hst⟩
    · exact (hw.not_reaped hexit st hst).elim
  cases h with
  | signalled s =>
    obtain ⟨hpc, -, hchild, -⟩ := w.signal_frame s
    refine ⟨by unfold Over; rwa [hchild], ?_⟩
    show (if (w.signal s).ended = none then Pc.left (w.signal s).pc else 0) + 0 ≤ w.left + 0
    unfold left
    rw [hpc, if_pos hlive]
    split_ifs
    · exact le_rfl
    · exact Nat.zero_le _
  | childEnded st hrun =>
    obtain ⟨st', hst' | hst'⟩ := hover
    · rw [hrun] at hst'
      cases hst'
    · rw [hrun] at hst'
      cases hst'
  | started hpc =>
    obtain ⟨st, hst⟩ := hreaped (by simp [hpc])
    rw [hw.absent.mpr hpc] at hst
    cases hst
  | @foundRunning ok hpc hchild =>
    obtain ⟨st, hst⟩ := hreaped (by simp [hpc])
    cases ok with
    | true => exact (hchild rfl st hst).elim
    | false => exact ⟨hover, by simp [left, Pc.left, Act.own, Act.missed, hlive, hpc]⟩
  | notStarted hpc =>
    obtain ⟨st, hst⟩ := hreaped (by simp [hpc])
    rw [hw.absent.mpr hpc] at hst
    cases hst
  | foundEnded hpc => exact ⟨⟨_, Or.inr rfl⟩, by simp [left, Pc.left, reap, Act.own, hlive, hpc]⟩
  | waited hpc => exact ⟨⟨_, Or.inr rfl⟩, by simp [left, Pc.left, reap, Act.own, hlive, hpc]⟩
  | _ hpc => exact ⟨hover, by simp [left, Pc.left, Act.own, Act.missed, hlive, hpc]⟩

theorem left_le (w : Wrapper) : w.left ≤ 5 := by
  unfold left Pc.left
  split_ifs
  · split <;> omega
  · omega

/-- Every step of the wrapper takes it nearer to the end, once the component has ended, except
    for a `try_wait` that fails. -/
theorem left_run (hw : Inv w) (hover : Over w) {acts : List Act} (h : exec (step p) w acts = some w') :
    Over w' ∧ w'.left + acts.countP Act.own ≤ w.left + 3 * acts.countP Act.missed := by
  induction acts generalizing w with
  | nil =>
    obtain rfl := Option.some.inj h
    exact ⟨hover, le_rfl⟩
  | cons a acts ih =>
    obtain ⟨w₁, hstep, h⟩ := exec_cons_iff.mp h
    obtain ⟨hover, hle⟩ := left_step hw hover hstep
    obtain ⟨hover', hrest⟩ := ih (inv_step hw hstep) hover h
    refine ⟨hover', ?_⟩
    rw [List.countP_cons, List.countP_cons]
    split_ifs at hle ⊢ <;> omega

/-- Nothing holds up a wrapper whose component has ended. -/
theorem exists_step (hw : Inv w) (hover : Over w) (hlive : w.ended = none) :
    ∃ a, a.own = true ∧ ¬ a.GivesUp p ∧ a.missed = false ∧ (w.step p a).isSome = true := by
  cases hpc : w.pc with
  | spawn =>
    obtain ⟨st, hst | hst⟩ := hover
    · rw [hw.absent.mpr hpc] at hst
      cases hst
    · rw [hw.absent.mpr hpc] at hst
      cases hst
  | store => exact ⟨.store, rfl, nofun, rfl, by simp [step, act, hlive, hpc]⟩
  | handleTerm => exact ⟨.handleTerm, rfl, nofun, rfl, by simp [step, act, hlive, hpc]⟩
  | handleInt => exact ⟨.handleInt, rfl, nofun, rfl, by simp [step, act, hlive, hpc]⟩
  | tryWait =>
    obtain ⟨st, hst | hst⟩ := hover
    · exact ⟨.tryWait true, rfl, nofun, rfl, by simp [step, act, hlive, hpc, hst]⟩
    · exact ⟨.tryWait true, rfl, nofun, rfl, by simp [step, act, hlive, hpc, hst]⟩
  | check =>
    have hfine : ¬ p.BadName .down := fun hname => by
      obtain ⟨msg, hmsg⟩ := Probe.check_error_iff.mpr hname
      rw [p.check_down] at hmsg
      cases hmsg
    exact ⟨.check .down, rfl, hfine, rfl, by simp [step, act, hlive, hpc, p.check_down]⟩
  | notify => exact ⟨.notify, rfl, nofun, rfl, by simp [step, act, hlive, hpc]⟩
  | wait =>
    obtain ⟨st, hst | hst⟩ := hover
    · exact ⟨.wait true, rfl, nofun, rfl, by simp [step, act, hlive, hpc, hst]⟩
    · exact (hw.not_reaped (by simp [hpc]) st hst).elim
  | sleep => exact ⟨.sleep, rfl, nofun, rfl, by simp [step, act, hlive, hpc]⟩
  | exit c => exact ⟨.exit, rfl, nofun, rfl, by simp [step, act, hlive, hpc]⟩

/-! ## Whole runs -/

variable {acts : List Act}

theorem due_run (h : exec (step p) w acts = some w') :
    w'.ready + w'.due = w.ready + w.due + acts.countP (·.succeeds p) := by
  induction acts generalizing w with
  | nil =>
    obtain rfl := Option.some.inj h
    rfl
  | cons a acts ih =>
    obtain ⟨w₁, hstep, h⟩ := exec_cons_iff.mp h
    have hfirst := step_due hstep
    rw [ih h, hfirst, List.countP_cons]
    omega

theorem received_run (h : exec (step p) w acts = some w') :
    w'.received = w.received ++ acts.filterMap Act.signal? := by
  induction acts generalizing w with
  | nil =>
    obtain rfl := Option.some.inj h
    exact (List.append_nil _).symm
  | cons a acts ih =>
    obtain ⟨w₁, hstep, h⟩ := exec_cons_iff.mp h
    rw [ih h, step_received hstep, List.append_assoc, List.filterMap_cons]
    cases a.signal? <;> rfl

/-- In every run of the wrapper: `READY=1` is sent at most once, for the one probe that succeeded.
    Every signal was sent on to the component, in order, but those that came after it was waited
    for, which go to its old pid, and one that ended the wrapper before its handler was there.
    An exit code is that of the component, which was waited for, or it is 2, and the component could
    not be started or waited for, or the probe has met a bad name. Once the component has ended,
    the wrapper has at most five steps left, and three more for each `try_wait` that fails; and
    always one until it has ended. -/
theorem wrapper_run (h : exec (step p) .init acts = some w) :
    (w.ready ≤ acts.countP (·.succeeds p) ∧ acts.countP (·.succeeds p) ≤ 1) ∧
    (acts.filterMap Act.signal? = w.received ∧ w.caught = w.passed ++ w.stray ∧
      (w.stray ≠ [] → ∃ st, w.child = .reaped st) ∧
      ∀ s, w.ended = some (.killed s) → s ∉ w.handled) ∧
    (∀ c, w.ended = some (.code c) → Coded (∃ a ∈ acts, a.GivesUp p) w c) ∧
    (w.Over → ∀ acts' w', exec (step p) w acts' = some w' →
      acts'.countP Act.own ≤ 5 + 3 * acts'.countP Act.missed ∧
        (w'.ended = none → ∃ a, a.own = true ∧ ¬ a.GivesUp p ∧ a.missed = false ∧
          (w'.step p a).isSome = true)) := by
  have hw : Inv w := exec_invariant (fun _ _ _ hstep hw => inv_step hw hstep) h inv_init
  have hcount : w.ready + w.due = acts.countP (·.succeeds p) :=
    (due_run h).trans (Nat.zero_add _)
  refine ⟨⟨?_, ?_⟩, ⟨?_, hw.forwarded.symm, hw.stray, hw.killed⟩, ?_, ?_⟩
  · omega
  · rw [← hcount]
    exact hw.ready
  · exact (received_run h).symm
  · have halong : Along (step p) (fun _ a => a.GivesUp p → ∃ a ∈ acts, a.GivesUp p) .init acts :=
      along_of_forall fun a ha _ hgives => ⟨a, ha, hgives⟩
    have hfaithful : Faithful (∃ a ∈ acts, a.GivesUp p) w :=
      halong.invariant (fun _ _ _ ha hstep hf => faithful_step hf ha hstep) h ⟨nofun, nofun⟩
    exact hfaithful.exited
  · intro hover acts' w' h'
    have hw' : Inv w' := exec_invariant (fun _ _ _ hstep hw => inv_step hw hstep) h' hw
    obtain ⟨hover', hle⟩ := left_run hw hover h'
    exact ⟨(Nat.le_add_left _ _).trans (hle.trans (Nat.add_le_add_right (left_le w) _)),
      exists_step hw' hover'⟩

end Wrapper

/-- The probe of an API server, which does not look at its certificate. -/
def Probe.sample : Probe := ⟨"127.0.0.1".toList, 6443, "/readyz".toList, some ⟨none, none⟩⟩

/-- An API server that answers. -/
def Endpoint.sample : Endpoint :=
  ⟨fun _ => false, fun address => address = "127.0.0.1:6443".toList, fun _ => true, true,
    fun _ => true, some (utf8 "HTTP/1.1 200 OK\r\n".toList)⟩

namespace Wrapper

/-- A component that is ready at the second probe, and ends at a signal. -/
def orderlyStop : List Act :=
  [.spawn true, .store, .handleTerm, .handleInt, .tryWait true, .check .down, .sleep,
    .tryWait true, .check .sample, .notify, .signal .term, .childEnds (.exited 143), .wait true,
    .exit]

theorem wrapper_run_orderlyStop : ∃ w, exec (step .sample) .init orderlyStop = some w ∧ w.ready = 1 ∧
    orderlyStop.filterMap Act.signal? = w.received ∧ w.caught = w.passed ++ w.stray ∧
      ∀ c, w.ended = some (.code c) → Coded (∃ a ∈ orderlyStop, a.GivesUp .sample) w c := by
  have h : exec (step .sample) .init orderlyStop = some ⟨.exit 143, .reaped (.exited 143), true,
      [.int, .term], 1, [.term], [.term], [], some (.code 143)⟩ := by decide
  obtain ⟨-, ⟨hreceived, hcaught, -⟩, hcode, -⟩ := wrapper_run h
  exact ⟨_, h, rfl, hreceived, hcaught, hcode⟩

end Wrapper

end Kubenyx.Ready
