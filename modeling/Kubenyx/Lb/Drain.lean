import Kubenyx.Lb.Dial
import Kubenyx.Lb.Pump

/-!
# Draining

Model of the process: the accept loop and the drain of `run` (kubenyx-lb lib.rs:483-530), the
thread of every connection (`handle`, lib.rs:378-411) with the two loops that forward it, and the
signal handler, which only sets a flag (lib.rs:49-53). Everything but the flag of the health
thread is here, in any interleaving. The clock counts milliseconds since the start of the process
and stays below 2^64 - 1; a counter of threads does not overflow.

* `run_inv`: the invariant of all runs.
* `drain_orderly`: the process exits with 0 only when no connection is in flight or the time for
  draining is over; no connection is cut before that, and none is accepted once the accept loop
  has been left.
-/

namespace Kubenyx.Lb

open Kubenyx.Common

/-! ## Connections -/

/-- Where the thread of a connection stands. -/
inductive Stage where
  | dialing
  | relaying
  /-- The thread that forwards the answers could not be started: the panic ends `handle` before
      the counter is decremented. -/
  | crashed
  /-- `handle` has returned. -/
  | returned
  /-- The counter is decremented. -/
  | finished
  deriving DecidableEq

/-- A connection that was accepted, with its two directions once it is forwarded. -/
structure Conn where
  stage : Stage
  pumps : Option (Pump × Pump)
  deriving DecidableEq

/-- What follows a successful dial (lib.rs:398-404). -/
inductive Setup where
  | ok
  | cloneFails
  | spawnPanics
  deriving DecidableEq

inductive ConnAct where
  /-- The loop over the backends; what the flags and the backends are meanwhile. -/
  | dial (backends : List Backend) (connect : ℕ → Except Text Unit) (setup : Setup)
  /-- The direction from the client, in the thread of the connection. -/
  | up (act : PumpAct)
  /-- The direction to the client, in its own thread. -/
  | down (act : PumpAct)
  /-- Both loops have ended (lib.rs:403-406). -/
  | join
  /-- `ACTIVE.fetch_sub` (lib.rs:493). -/
  | release

/-- The loop of a direction has ended. -/
def Pump.Ended (p : Pump) : Prop := ∃ why, p.phase = .ended why

instance (p : Pump) : Decidable p.Ended :=
  match h : p.phase with
  | .ended why => .isTrue ⟨why, h⟩
  | .reading => .isFalse fun ⟨why, hw⟩ => by simp [h] at hw
  | .writing c => .isFalse fun ⟨why, hw⟩ => by simp [h] at hw

/-- A step of a connection: the connection, the cursor and the counter of connections. -/
def connStep (expired : Bool) (cursor active : ℕ) (c : Conn) (act : ConnAct) :
    Option (Conn × ℕ × ℕ) :=
  match c.stage, act, c.pumps with
  | .dialing, .dial backends connect setup, _ =>
    let (cursor', _, upstream) := handle backends connect cursor
    some (match upstream, setup with
      | some _, .ok => (⟨.relaying, some (.start, .start)⟩, cursor', active)
      | some _, .spawnPanics => (⟨.crashed, none⟩, cursor', active)
      | some _, .cloneFails => (⟨.returned, none⟩, cursor', active)
      | none, _ => (⟨.returned, none⟩, cursor', active))
  | .relaying, .up act, some (up, down) =>
    (up.step expired act).map fun up => (⟨.relaying, some (up, down)⟩, cursor, active)
  | .relaying, .down act, some (up, down) =>
    (down.step expired act).map fun down => (⟨.relaying, some (up, down)⟩, cursor, active)
  | .relaying, .join, some (up, down) =>
    if up.Ended ∧ down.Ended then some (⟨.returned, some (up, down)⟩, cursor, active) else none
  | .returned, .release, pumps => some (⟨.finished, pumps⟩, cursor, active - 1)
  | _, _, _ => none

/-! ## The process -/

/-- Where the main thread stands. -/
inductive MainPhase where
  /-- About to test `DRAINING` (lib.rs:483). -/
  | looping
  /-- In `accept` (lib.rs:484). -/
  | accepting
  /-- Out of the loop, before the deadline is stored (lib.rs:513). -/
  | leaving
  /-- In the loop that waits for the connections (lib.rs:523). -/
  | waiting
  | exited (code : ℕ)
  deriving DecidableEq

structure Process where
  /-- `elapsed_ms`. -/
  clock : ℕ
  /-- `DRAINING`. -/
  draining : Bool
  /-- `DRAIN_DEADLINE_MS`. -/
  deadline : ℕ
  /-- `ACTIVE`. -/
  active : ℕ
  cursor : ℕ
  main : MainPhase
  conns : List Conn
  /-- When the deadline was stored. -/
  drainStart : Option ℕ
  deriving DecidableEq

inductive ProcessAct where
  /-- `SIGTERM` or `SIGINT`. -/
  | signal
  | tick (ms : ℕ)
  | test
  | accept
  /-- Nothing to accept, or an error: the loop goes on after a pause (lib.rs:496-506). -/
  | acceptFails
  /-- The thread of a connection cannot be started, after the counter is incremented. -/
  | spawnPanics
  /-- The listener is closed and the deadline stored (lib.rs:513-517). -/
  | storeDeadline
  | poll
  | conn (i : ℕ) (act : ConnAct)

/-- `u64::MAX`. -/
def noDeadline : ℕ := 2 ^ 64 - 1

/-- `drain_expired` (lib.rs:67-69). -/
def Process.expired (σ : Process) : Bool := σ.draining && σ.deadline ≤ σ.clock

/-- The process when the accept loop is entered. -/
def Process.init : Process := ⟨0, false, noDeadline, 0, 0, .looping, [], none⟩

/-- A step of the process with a configuration. -/
def processStep (cfg : Cfg) (σ : Process) (act : ProcessAct) : Option Process :=
  match σ.main, act with
  | .exited _, _ => none
  | _, .signal => some { σ with draining := true }
  | _, .tick ms =>
    if σ.clock + ms < noDeadline then some { σ with clock := σ.clock + ms } else none
  | .looping, .test => some { σ with main := if σ.draining then .leaving else .accepting }
  | .accepting, .accept =>
    some { σ with active := σ.active + 1, conns := σ.conns ++ [⟨.dialing, none⟩], main := .looping }
  | .accepting, .acceptFails => some { σ with main := .looping }
  | .accepting, .spawnPanics => some { σ with active := σ.active + 1, main := .exited 101 }
  | .leaving, .storeDeadline =>
    some { σ with
      deadline := min (σ.clock + cfg.drainTimeout) noDeadline
      drainStart := some σ.clock
      main := .waiting }
  | .waiting, .poll =>
    some { σ with main := if 0 < σ.active ∧ σ.expired = false then .waiting else .exited 0 }
  | _, .conn i act => do
    let c ← σ.conns[i]?
    let (c, cursor, active) ← connStep σ.expired σ.cursor σ.active c act
    some { σ with conns := σ.conns.set i c, cursor := cursor, active := active }
  | _, _ => none

/-! ## What holds of a connection -/

/-- A direction is forwarded as `pump` does it, and is not cut before its time. -/
structure PumpOk (late : Prop) (p : Pump) : Prop where
  carried : p.Carried
  uncut : p.phase = .ended .expired → late

/-- Both directions are forwarded properly, and both have ended once the thread is done. -/
structure ConnOk (late : Prop) (c : Conn) : Prop where
  up : ∀ up down, c.pumps = some (up, down) → PumpOk late up
  down : ∀ up down, c.pumps = some (up, down) → PumpOk late down
  ended : c.stage = .returned ∨ c.stage = .finished →
    ∀ up down, c.pumps = some (up, down) → up.Ended ∧ down.Ended

variable {expired : Bool} {cursor active cursor' active' : ℕ} {c c' : Conn} {act : ConnAct}
  {late late' : Prop}

theorem pumpOk_start : PumpOk late .start :=
  ⟨Pump.carried_start, fun h => absurd h (by simp [Pump.start])⟩

theorem PumpOk.mono {p : Pump} (h : PumpOk late p) (hle : late → late') : PumpOk late' p :=
  ⟨h.carried, fun hp => hle (h.uncut hp)⟩

theorem ConnOk.mono (h : ConnOk late c) (hle : late → late') : ConnOk late' c :=
  ⟨fun up down hp => (h.up up down hp).mono hle, fun up down hp => (h.down up down hp).mono hle,
    h.ended⟩

theorem PumpOk.step {p p' : Pump} {act : PumpAct} (h : PumpOk late p) (hexp : expired = true → late)
    (hstep : p.step expired act = some p') : PumpOk late p' where
  carried := h.carried.step hstep
  uncut hp := by
    by_cases hbefore : p.phase = .ended .expired
    · exact h.uncut hbefore
    · exact hexp (Pump.expired_of_step hbefore hstep hp)

/-- A connection without directions. -/
theorem connOk_none (stage : Stage) : ConnOk late ⟨stage, none⟩ :=
  ⟨by simp, by simp, by simp⟩

theorem connOk_pair {stage : Stage} {up down : Pump} (hup : PumpOk late up) (hdown : PumpOk late down)
    (hended : stage = .returned ∨ stage = .finished → up.Ended ∧ down.Ended) :
    ConnOk late ⟨stage, some (up, down)⟩ := by
  refine ⟨fun u d h => ?_, fun u d h => ?_, fun hs u d h => ?_⟩
  all_goals obtain ⟨rfl, rfl⟩ := Prod.mk.inj (Option.some.inj h)
  · exact hup
  · exact hdown
  · exact hended hs

/-- A step of a connection that is not over: it stays proper, and the counter goes down exactly
    when the connection is finished. -/
theorem connStep_spec (hc : ConnOk late c) (hexp : expired = true → late)
    (h : connStep expired cursor active c act = some (c', cursor', active')) :
    ConnOk late c' ∧ c.stage ≠ .finished ∧
      active' = active - if c'.stage = .finished then 1 else 0 := by
  obtain ⟨stage, pumps⟩ := c
  unfold connStep at h
  split at h
  case h_1 backends connect setup pumps hstage => -- the dial
    obtain rfl : stage = .dialing := hstage
    simp only [Option.some.injEq] at h
    split at h <;> obtain ⟨rfl, -, rfl⟩ := h
    · exact ⟨connOk_pair pumpOk_start pumpOk_start (by simp), by simp, by simp⟩
    all_goals exact ⟨connOk_none _, by simp, by simp⟩
  case h_2 act up down hstage hpumps => -- the direction from the client
    obtain rfl : stage = .relaying := hstage
    obtain ⟨up', hup, heq⟩ := Option.map_eq_some_iff.mp h
    obtain ⟨rfl, -, rfl⟩ := heq
    exact ⟨connOk_pair ((hc.up up down hpumps).step hexp hup) (hc.down up down hpumps) (by simp),
      by simp, by simp⟩
  case h_3 act up down hstage hpumps => -- the direction to the client
    obtain rfl : stage = .relaying := hstage
    obtain ⟨down', hdown, heq⟩ := Option.map_eq_some_iff.mp h
    obtain ⟨rfl, -, rfl⟩ := heq
    exact ⟨connOk_pair (hc.up up down hpumps) ((hc.down up down hpumps).step hexp hdown) (by simp),
      by simp, by simp⟩
  case h_4 up down hstage hpumps => -- both have ended
    obtain rfl : stage = .relaying := hstage
    split_ifs at h with hended
    obtain ⟨rfl, -, rfl⟩ := Option.some.inj h
    exact ⟨connOk_pair (hc.up up down hpumps) (hc.down up down hpumps) fun _ => hended,
      by simp, by simp⟩
  case h_5 pumps hstage => -- the counter is decremented
    obtain rfl : stage = .returned := hstage
    obtain ⟨rfl, -, rfl⟩ := Option.some.inj h
    exact ⟨⟨hc.up, hc.down, fun _ => hc.ended (Or.inl rfl)⟩, by simp, by simp⟩
  case h_6 => exact absurd h (by simp)

/-! ## What holds of the process -/

/-- The time for draining is over. -/
def Late (cfg : Cfg) (σ : Process) : Prop :=
  ∃ start, σ.drainStart = some start ∧ start + cfg.drainTimeout ≤ σ.clock

/-- The connections that the counter counts. -/
def inFlight (conns : List Conn) : ℕ := conns.countP fun c => c.stage ≠ .finished

structure ProcessInv (cfg : Cfg) (σ : Process) : Prop where
  clock : σ.clock < noDeadline
  deadline : σ.deadline = (σ.drainStart.map fun start =>
    min (start + cfg.drainTimeout) noDeadline).getD noDeadline
  unstarted : σ.main = .looping ∨ σ.main = .accepting ∨ σ.main = .leaving → σ.drainStart = none
  active : σ.main ≠ .exited 101 → σ.active = inFlight σ.conns
  exit : σ.main = .exited 0 → σ.active = 0 ∨ Late cfg σ
  conns : ∀ c ∈ σ.conns, ConnOk (Late cfg σ) c

variable {cfg : Cfg} {σ σ' : Process} {a : ProcessAct}

/-- A tick that finds the deadline passed comes after the time for draining: before the deadline
    is stored, and when the sum saturates, the clock does not reach it. -/
theorem ProcessInv.late_of_expired (h : ProcessInv cfg σ) (hexp : σ.expired = true) : Late cfg σ := by
  have hclock := h.clock
  have hdeadline := h.deadline
  simp only [Process.expired, Bool.and_eq_true, decide_eq_true_eq] at hexp
  cases hstart : σ.drainStart with
  | none =>
    rw [hstart, Option.map_none, Option.getD_none] at hdeadline
    omega
  | some start =>
    rw [hstart, Option.map_some, Option.getD_some] at hdeadline
    exact ⟨start, hstart, by omega⟩

theorem Late.mono (h : Late cfg σ) (hclock : σ.clock ≤ σ'.clock)
    (hstart : σ'.drainStart = σ.drainStart) : Late cfg σ' := by
  obtain ⟨start, hs, hle⟩ := h
  exact ⟨start, hstart.trans hs, hle.trans hclock⟩

theorem processInv_init (cfg : Cfg) : ProcessInv cfg .init where
  clock := by decide
  deadline := rfl
  unstarted _ := rfl
  active _ := rfl
  exit h := absurd h (by simp [Process.init])
  conns := by simp [Process.init]

/-- A step of the accept loop that only moves the main thread. -/
theorem ProcessInv.move (h : ProcessInv cfg σ) {main : MainPhase} (hexit : ∀ code, main ≠ .exited code)
    (hmain : σ.main = .looping ∨ σ.main = .accepting) :
    ProcessInv cfg { σ with main := main } where
  clock := h.clock
  deadline := h.deadline
  unstarted _ := h.unstarted (hmain.imp_right Or.inl)
  active _ := h.active (by rcases hmain with hm | hm <;> simp [hm])
  exit hx := absurd hx (hexit 0)
  conns := h.conns

/-- The replaced connection is counted as before, less one if it is finished now. -/
theorem inFlight_set {conns : List Conn} {i : ℕ} {c c' : Conn} (hi : conns[i]? = some c)
    (hc : c.stage ≠ .finished) :
    inFlight (conns.set i c') = inFlight conns - if c'.stage = .finished then 1 else 0 := by
  obtain ⟨hlt, hget⟩ := List.getElem?_eq_some_iff.mp hi
  have hmem : c ∈ conns := hget ▸ List.getElem_mem hlt
  have hpos : 0 < inFlight conns := List.countP_pos_iff.mpr ⟨c, hmem, by simpa using hc⟩
  unfold inFlight at *
  rw [List.countP_set hlt, hget]
  have hcounted : decide (c.stage ≠ .finished) = true := by simpa using hc
  by_cases hfin : c'.stage = .finished
  · have hgone : decide (c'.stage ≠ .finished) = false := by simpa using hfin
    rw [hcounted, hgone, if_pos rfl, if_neg (by simp), if_pos hfin]
    omega
  · have hstays : decide (c'.stage ≠ .finished) = true := by simpa using hfin
    rw [hcounted, hstays, if_pos rfl, if_neg hfin]
    omega

/-- A step of a connection. -/
theorem ProcessInv.conn (h : ProcessInv cfg σ) (hmain : ∀ code, σ.main ≠ .exited code) {i : ℕ}
    {act : ConnAct} {c c' : Conn} {cursor active : ℕ} (hi : σ.conns[i]? = some c)
    (hstep : connStep σ.expired σ.cursor σ.active c act = some (c', cursor, active)) :
    ProcessInv cfg { σ with conns := σ.conns.set i c', cursor := cursor, active := active } := by
  obtain ⟨hok, hunfinished, hactive⟩ :=
    connStep_spec (h.conns c (List.mem_of_getElem? hi)) h.late_of_expired hstep
  refine ⟨h.clock, h.deadline, h.unstarted, fun _ => ?_, fun hx => absurd hx (hmain 0),
    fun d hd => ?_⟩
  · rw [hactive, h.active (hmain _)]
    exact (inFlight_set hi hunfinished).symm
  · rcases List.mem_or_eq_of_mem_set hd with hold | rfl
    · exact h.conns d hold
    · exact hok

theorem processInv_step (h : ProcessInv cfg σ) (hstep : processStep cfg σ a = some σ') :
    ProcessInv cfg σ' := by
  unfold processStep at hstep
  split at hstep
  case h_1 => exact absurd hstep (by simp)
  case h_2 hmain => -- the signal
    obtain rfl := Option.some.inj hstep
    exact ⟨h.clock, h.deadline, h.unstarted, h.active, fun hx => absurd hx (hmain 0), h.conns⟩
  case h_3 ms hmain => -- the clock
    split_ifs at hstep with hclock
    obtain rfl := Option.some.inj hstep
    refine ⟨hclock, h.deadline, h.unstarted, h.active, fun hx => absurd hx (hmain 0),
      fun c hc => ?_⟩
    exact (h.conns c hc).mono fun hlate => hlate.mono (Nat.le_add_right _ _) rfl
  case h_4 hphase =>
    obtain rfl := Option.some.inj hstep
    refine h.move (fun code => ?_) (Or.inl hphase)
    split_ifs <;> simp
  case h_5 hphase => -- a connection is accepted
    obtain rfl := Option.some.inj hstep
    have hactive := h.active (by simp [hphase])
    have hunstarted := h.unstarted (Or.inr (Or.inl hphase))
    refine ⟨h.clock, h.deadline, fun _ => hunstarted, fun _ => ?_, fun hx => absurd hx (by simp), ?_⟩
    · show σ.active + 1 = inFlight (σ.conns ++ [⟨.dialing, none⟩])
      rw [hactive, inFlight, inFlight, List.countP_append]
      rfl
    · exact List.forall_mem_append.mpr ⟨h.conns, List.forall_mem_singleton.mpr (connOk_none _)⟩
  case h_6 hphase =>
    obtain rfl := Option.some.inj hstep
    exact h.move (by simp) (Or.inr hphase)
  case h_7 hphase => -- the panic of the main thread
    obtain rfl := Option.some.inj hstep
    exact ⟨h.clock, h.deadline, by simp, fun hx => absurd rfl hx, fun hx => absurd hx (by simp),
      h.conns⟩
  case h_8 hphase => -- the deadline is stored
    obtain rfl := Option.some.inj hstep
    have hactive := h.active (by simp [hphase])
    have hunstarted := h.unstarted (Or.inr (Or.inr hphase))
    refine ⟨h.clock, rfl, by simp, fun _ => hactive, fun hx => absurd hx (by simp), fun c hc => ?_⟩
    -- no connection was cut before
    refine (h.conns c hc).mono fun hlate => ?_
    obtain ⟨start, hstart, -⟩ := hlate
    simp [hunstarted] at hstart
  case h_9 hphase => -- the loop that waits
    obtain rfl := Option.some.inj hstep
    have hactive := h.active (by simp [hphase])
    refine ⟨h.clock, h.deadline, fun hx => ?_, fun _ => hactive, fun hx => ?_, h.conns⟩
    · dsimp only at hx
      split_ifs at hx <;> simp at hx
    have hdone : ¬ (0 < σ.active ∧ σ.expired = false) := by
      intro hwait
      simp [hwait] at hx
    by_cases hzero : σ.active = 0
    · exact Or.inl hzero
    · refine Or.inr (h.late_of_expired ?_)
      simpa [Nat.pos_of_ne_zero hzero] using hdone
  case h_10 i act hmain => -- a step of a connection
    simp only [Option.bind_eq_bind, Option.bind_eq_some_iff, Option.some.injEq] at hstep
    obtain ⟨c, hi, ⟨c', cursor, active⟩, hconn, rfl⟩ := hstep
    exact h.conn hmain hi hconn
  case h_11 => exact absurd hstep (by simp)

/-! ## Runs -/

theorem run_inv {acts : List ProcessAct} (h : exec (processStep cfg) .init acts = some σ) :
    ProcessInv cfg σ :=
  exec_invariant (fun _ _ _ hstep hs => processInv_step hs hstep) h (processInv_init cfg)

/-- The main thread has left the accept loop. -/
def Left (σ : Process) : Prop := σ.main ≠ .looping ∧ σ.main ≠ .accepting

/-- It has left it with so many connections accepted. -/
def LeftWith (n : ℕ) (σ : Process) : Prop := Left σ ∧ σ.conns.length = n

/-- Once the accept loop is left, it stays so, and no connection is added. -/
theorem leftWith_step {n : ℕ} (hstep : processStep cfg σ a = some σ') (hs : LeftWith n σ) :
    LeftWith n σ' := by
  obtain ⟨hleft, hlen⟩ := hs
  unfold processStep at hstep
  split at hstep
  case h_1 => exact absurd hstep (by simp)
  case h_2 =>
    obtain rfl := Option.some.inj hstep
    exact ⟨hleft, hlen⟩
  case h_3 =>
    split_ifs at hstep
    obtain rfl := Option.some.inj hstep
    exact ⟨hleft, hlen⟩
  case h_8 =>
    obtain rfl := Option.some.inj hstep
    exact ⟨⟨by simp, by simp⟩, hlen⟩
  case h_9 =>
    obtain rfl := Option.some.inj hstep
    refine ⟨⟨?_, ?_⟩, hlen⟩ <;> dsimp only <;> split_ifs <;> simp
  case h_10 =>
    simp only [Option.bind_eq_bind, Option.bind_eq_some_iff, Option.some.injEq] at hstep
    obtain ⟨c, -, ⟨c', cursor, active⟩, -, rfl⟩ := hstep
    exact ⟨hleft, List.length_set.trans hlen⟩
  case h_11 => exact absurd hstep (by simp)
  case h_4 hphase => exact absurd hphase hleft.1
  all_goals
    rename_i hphase
    exact absurd hphase hleft.2

/-- Draining is orderly. In every interleaving of the main thread, the signal handler, the threads
    of the connections and both directions of each: the counter is the number of connections in
    flight; the process exits with 0 only when that is zero, or the configured time has passed
    since the drain began; in every direction of every connection what has been written is a
    beginning of what was sent, and it is not cut at a tick before that time has passed; a
    connection that is done has forwarded both directions to their end; and once the accept loop
    has been left, no connection is accepted. -/
theorem drain_orderly (cfg : Cfg) (acts : List ProcessAct) (σ : Process)
    (h : exec (processStep cfg) .init acts = some σ) :
    (σ.main ≠ .exited 101 → σ.active = inFlight σ.conns) ∧
      (σ.main = .exited 0 → (∀ c ∈ σ.conns, c.stage = .finished) ∨ Late cfg σ) ∧
      (∀ c ∈ σ.conns, ∀ up down, c.pumps = some (up, down) →
        up.written <+: up.sent ∧ down.written <+: down.sent ∧
          (up.phase = .ended .expired ∨ down.phase = .ended .expired → Late cfg σ) ∧
          (c.stage = .finished → up.Ended ∧ down.Ended)) ∧
      (Left σ → ∀ more σ', exec (processStep cfg) σ more = some σ' →
        σ'.conns.length = σ.conns.length) := by
  have hinv := run_inv h
  refine ⟨hinv.active, fun hexit => ?_, fun c hc up down hp => ?_, fun hleft more σ' hmore => ?_⟩
  · refine (hinv.exit hexit).imp_left fun hzero c hc => ?_
    have hcount := hinv.active (by simp [hexit])
    rw [hzero, inFlight, eq_comm, List.countP_eq_zero] at hcount
    simpa using hcount c hc
  · have hok := hinv.conns c hc
    have hup := hok.up up down hp
    have hdown := hok.down up down hp
    exact ⟨hup.carried.beginning, hdown.carried.beginning,
      fun hcut => hcut.elim hup.uncut hdown.uncut, fun hdone => hok.ended (Or.inr hdone) up down hp⟩
  · have hkeeps : LeftWith σ.conns.length σ' :=
      exec_invariant (fun _ _ _ => leftWith_step) hmore ⟨hleft, rfl⟩
    exact hkeeps.2

/-- One connection is accepted before the signal; its answer is cut when the ten seconds are over,
    after the client has closed its side and the request has been forwarded. -/
def drainRun : List ProcessAct :=
  [.test, .accept, .signal, .conn 0 (.dial threeBackends (fun _ => .ok ()) .ok),
    .conn 0 (.up (.send [71])), .conn 0 (.up .close), .conn 0 (.up (.read 1)),
    .conn 0 (.up .wrote), .conn 0 (.up .readEof), .test, .storeDeadline, .poll, .tick 9999,
    .conn 0 (.down .wait), .tick 1, .conn 0 (.down .wait), .poll]

/-- The process leaves that connection in flight, after its time. -/
theorem drain_orderly_cut : ∃ σ, exec (processStep .default) .init drainRun = some σ ∧
    σ.main = .exited 0 ∧ σ.active = 1 ∧ Late .default σ := by
  let σ := (exec (processStep .default) .init drainRun).getD .init
  have hrun : exec (processStep .default) .init drainRun = some σ := by rfl
  have hexit : σ.main = .exited 0 := by decide
  obtain ⟨hactive, hend, -, -⟩ := drain_orderly .default drainRun σ hrun
  have hflight : ¬ ∀ c ∈ σ.conns, c.stage = .finished := by decide
  exact ⟨σ, hrun, hexit, hactive (by simp [hexit]), (hend hexit).resolve_left hflight⟩

end Kubenyx.Lb
