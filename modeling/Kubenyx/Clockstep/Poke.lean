import Kubenyx.Common.Decimal
import Kubenyx.Common.Slice
import Kubenyx.Common.Wrapping

/-!
# The clock daemon

Model of `kubenyx-clockstep` (lib.rs:43-125), which sets the clock of a restored guest from
datagrams: `KNXT1`, the seconds in eight bytes and the nanoseconds in four. The offset from the
guest's clock is computed in 64 bits. The release profile of the workspace leaves overflow
checks off, so the product with 1000, the sum and `abs` wrap around.

* `decode_recvFrom`: what an earlier datagram left in the buffer is not looked at.
* `deltaMs_eq`: the offset is the exact one, wrapped.
* `exact_round_iff`: the clock is set as it should be, exactly when the exact offset has less
  than 63 bits or stays away from the multiples of 2^64.
* `pokeLoop_append`: every datagram of a run is handled in such a round.
* `run_exact_iff`: so it is under every command line that the daemon accepts.
-/

namespace Kubenyx.Clockstep

open Kubenyx.Common

/-! ## The daemon -/

/-- `MAGIC` (lib.rs:24): `KNXT1`. -/
def magic : List UInt8 := [75, 78, 88, 84, 49]

/-- The part of the options that decides about a datagram; the threshold is of type `i64`. -/
structure Policy where
  allowFrom : Option Text
  minStepMs : ℤ
  minStep_ge : -2 ^ 63 ≤ minStepMs
  minStep_lt : minStepMs < 2 ^ 63

/-- The options of `run` (lib.rs:44-46). -/
structure Options extends Policy where
  listen : Text

def Options.default : Options := ⟨⟨none, 500, by norm_num, by norm_num⟩, "0.0.0.0:10123".toList⟩

/-- The loop over the arguments (lib.rs:48-75); an error is what `die` prints. -/
def parseArgs (o : Options) : List Text → Except Text Options
  | [] => .ok o
  | [flag] =>
    if flag = "--listen".toList then .error "--listen needs a value".toList
    else if flag = "--allow-from".toList then .error "--allow-from needs a value".toList
    else if flag = "--min-step-ms".toList then .error "--min-step-ms needs an integer".toList
    else .error ("unknown flag ".toList ++ flag)
  | flag :: v :: args =>
    if flag = "--listen".toList then parseArgs { o with listen := v } args
    else if flag = "--allow-from".toList then parseArgs { o with allowFrom := some v } args
    else if flag = "--min-step-ms".toList then
      match h : parseSigned 64 v with
      | some n =>
        have hn := bounds_of_parseSigned h
        parseArgs { o with minStepMs := n, minStep_ge := hn.1, minStep_lt := hn.2 } args
      | none => .error "--min-step-ms needs an integer".toList
    else .error ("unknown flag ".toList ++ flag)

/-- `timespec`. -/
structure Timespec where
  sec : ℤ
  nsec : ℤ
  deriving DecidableEq

/-- A reading of the clock: after the epoch, and in the range of the type. -/
structure Reading extends Timespec where
  sec_nonneg : 0 ≤ sec
  sec_lt : sec < 2 ^ 63
  nsec_nonneg : 0 ≤ nsec
  nsec_lt : nsec < 10 ^ 9

/-- `recv_from` into the buffer of 64 bytes: a longer datagram is cut off, and what is behind a
    shorter one stays. -/
def recvFrom (buf datagram : List UInt8) : ℕ × List UInt8 :=
  let d := datagram.take 64
  (d.length, d ++ buf.drop d.length)

/-- The time in a datagram (lib.rs:93-94). -/
def decode (buf : List UInt8) : Timespec := ⟨leInt (slice buf 5 13), leInt (slice buf 13 17)⟩

/-- The tests before the clock is read (lib.rs:85-97), for a datagram of `n` bytes and a source
    address as `to_string` writes it. -/
def accepts (p : Policy) (n : ℕ) (buf : List UInt8) (src : Text) : Bool :=
  let t := decode buf
  17 ≤ n ∧ buf.take 5 = magic ∧ (∀ allow ∈ p.allowFrom, src = allow) ∧
    0 ≤ t.nsec ∧ t.nsec < 1000000000 ∧ 0 < t.sec

/-- `delta_ms` (lib.rs:104), every operation on 64 bits. -/
def deltaMs (t : Timespec) (now : Reading) : ℤ :=
  wrap 64 (wrap 64 (wrap 64 (t.sec - now.sec) * 1000) + (t.nsec - now.nsec).tdiv 1000000)

/-- What a datagram makes the daemon do (lib.rs:85-113): the time that `clock_settime` is called
    with, and the offset that is logged. -/
def onDatagram (p : Policy) (n : ℕ) (buf : List UInt8) (src : Text) (now : Reading) :
    Option (Timespec × ℤ) :=
  let t := decode buf
  if accepts p n buf src = false then none
  else if wrap 64 |deltaMs t now| < p.minStepMs then none
  else some (t, deltaMs t now)

/-- A datagram that arrives, with its source, the clock at that moment and what
    `clock_settime` would answer. -/
structure Reception where
  datagram : List UInt8
  ip : Text
  addr : Text
  now : Reading
  settime : Except Text Unit

/-- The line on the console (lib.rs:114-123). -/
def consoleLog (r : Reception) (delta : ℤ) : Text :=
  match r.settime with
  | .ok () =>
    "KUBENYX-CLOCKSTEP stepped=".toList ++ intText delta ++ "ms from=".toList ++ r.addr
  | .error e =>
    "KUBENYX-CLOCKSTEP failed delta=".toList ++ intText delta ++ "ms errno=".toList ++ e

/-- One round of the loop (lib.rs:80-124): the buffer afterwards, the time that the clock is set
    to and the line on the console. -/
def round (p : Policy) (buf : List UInt8) (r : Reception) :
    List UInt8 × Option (Timespec × Text) :=
  let (n, buf) := recvFrom buf r.datagram
  (buf, (onDatagram p n buf r.ip r.now).map fun (t, delta) => (t, consoleLog r delta))

/-- The loop (lib.rs:79-124) over the datagrams that arrive. -/
def pokeLoop (p : Policy) (buf : List UInt8) : List Reception → List (Option (Timespec × Text))
  | [] => []
  | r :: rs => (round p buf r).2 :: pokeLoop p (round p buf r).1 rs

/-- `run` (lib.rs:44-125) up to the last datagram that arrives. What `bind` answers is a
    parameter. -/
def run (bind : Text → Except Text Unit) (args : List Text) (rs : List Reception) :
    Except Text (List (Option (Timespec × Text))) := do
  let o ← parseArgs .default args
  match bind o.listen with
  | .error e => throw ("bind ".toList ++ o.listen ++ ": ".toList ++ e)
  | .ok () => return pokeLoop o.toPolicy (List.replicate 64 0) rs

/-! ## What should happen -/

/-- The offset over the integers, in milliseconds. -/
def exactOffset (t : Timespec) (now : Reading) : ℤ :=
  (t.sec - now.sec) * 1000 + (t.nsec - now.nsec).tdiv 1000000

/-- A datagram that may set the clock: long enough, with the magic, from the allowed address if
    one is configured, and with a time after the epoch. -/
structure Poke (p : Policy) (d : List UInt8) (src : Text) : Prop where
  length : 17 ≤ d.length
  magic : magic <+: d
  allowed : ∀ allow ∈ p.allowFrom, src = allow
  sec_pos : 0 < (decode d).sec
  nsec_nonneg : 0 ≤ (decode d).nsec
  nsec_lt : (decode d).nsec < 10 ^ 9

/-- What the daemon did for a datagram is right: the clock is set exactly if that is a poke whose
    offset is at least the threshold, and then to the time of the datagram. -/
def Exact (p : Policy) (r : Reception) (out : Option (Timespec × Text)) : Prop :=
  ∀ t, (∃ line, out = some (t, line)) ↔
    Poke p r.datagram r.ip ∧ p.minStepMs ≤ |exactOffset (decode r.datagram) r.now| ∧
      t = decode r.datagram

/-- The offset has less than 63 bits, or it is at least the threshold away from every multiple
    of 2^64 and its absolute value does not come out as the one number that has no positive
    counterpart. -/
def OffsetSafe (minStepMs offset : ℤ) : Prop :=
  |offset| < 2 ^ 63 ∨
    (∀ k : ℤ, minStepMs ≤ |offset - k * 2 ^ 64|) ∧ (offset % 2 ^ 64 ≠ 2 ^ 63 ∨ minStepMs = -2 ^ 63)

/-! ## The buffer -/

section buffer

variable {buf d : List UInt8}

theorem recvFrom_snd (buf d : List UInt8) :
    (recvFrom buf d).2 = d.take 64 ++ buf.drop (d.take 64).length := rfl

theorem take_recvFrom {n : ℕ} (hn : n ≤ 64) (hd : n ≤ d.length) :
    (recvFrom buf d).2.take n = d.take n := by
  have hlen : n ≤ (d.take 64).length := by
    rw [List.length_take]
    omega
  rw [recvFrom_snd, List.take_append_of_le_length hlen, List.take_take, Nat.min_eq_left hn]

/-- Of a datagram that is long enough, nothing of the buffer before is read. -/
theorem decode_recvFrom (hd : 17 ≤ d.length) : decode (recvFrom buf d).2 = decode d := by
  unfold decode slice
  rw [take_recvFrom (by omega) (by omega), take_recvFrom (by omega) (by omega)]

theorem length_recvFrom_iff : 17 ≤ (recvFrom buf d).1 ↔ 17 ≤ d.length := by
  show 17 ≤ (d.take 64).length ↔ _
  rw [List.length_take]
  omega

theorem accepts_iff {p : Policy} {src : Text} :
    accepts p (recvFrom buf d).1 (recvFrom buf d).2 src = true ↔ Poke p d src := by
  unfold accepts
  rw [decide_eq_true_iff, length_recvFrom_iff]
  constructor
  · rintro ⟨hlen, hmagic, hallow, hnonneg, hlt, hpos⟩
    rw [decode_recvFrom hlen] at hnonneg hlt hpos
    rw [take_recvFrom (by omega) (by omega)] at hmagic
    exact ⟨hlen, hmagic ▸ List.take_prefix 5 d, hallow, hpos, hnonneg, hlt⟩
  · rintro ⟨hlen, hmagic, hallow, hpos, hnonneg, hlt⟩
    rw [decode_recvFrom hlen, take_recvFrom (by omega) (by omega)]
    exact ⟨hlen, (List.prefix_iff_eq_take.mp hmagic).symm, hallow, hnonneg, hlt, hpos⟩

end buffer

/-! ## The offset -/

/-- The offset is the exact one, wrapped once. -/
theorem deltaMs_eq (t : Timespec) (now : Reading) : deltaMs t now = wrap 64 (exactOffset t now) := by
  unfold deltaMs exactOffset
  rw [wrap_wrap_mul, wrap_wrap_add]

/-- The wrapped offset is the one number without a positive counterpart. -/
theorem wrap_eq_min_iff {z : ℤ} : wrap 64 z = -2 ^ 63 ↔ z % 2 ^ 64 = 2 ^ 63 := by
  obtain ⟨k, hk⟩ := exists_wrap_eq 64 z
  obtain ⟨hlo, hhi⟩ := wrap_bounds 64 z
  omega

/-- `abs` is right for every other number. -/
theorem wrap_abs_wrap {z : ℤ} (hmin : wrap 64 z ≠ -2 ^ 63) : wrap 64 |wrap 64 z| = |wrap 64 z| := by
  obtain ⟨hlo, hhi⟩ := wrap_bounds 64 z
  rcases abs_cases (wrap 64 z) with ⟨h, -⟩ | ⟨h, -⟩
  · exact wrap_eq_self (by omega) (by omega)
  · exact wrap_eq_self (by omega) (by omega)

theorem wrap_of_abs_lt {z : ℤ} (hz : |z| < 2 ^ 63) : wrap 64 |wrap 64 z| = |z| := by
  obtain ⟨hlo, hhi⟩ := abs_lt.mp hz
  have hself : wrap 64 z = z := wrap_eq_self (by omega) (by omega)
  have hnonneg := abs_nonneg z
  rw [hself]
  exact wrap_eq_self (by omega) (by omega)

/-- The least magnitude among the numbers that are congruent to the offset is the wrapped one. -/
theorem le_abs_wrap_iff {m z : ℤ} : m ≤ |wrap 64 z| ↔ ∀ k : ℤ, m ≤ |z - k * 2 ^ 64| := by
  constructor
  · intro hle k
    exact hle.trans (abs_wrap_le 64 z k)
  · intro hall
    obtain ⟨k, hk⟩ := exists_wrap_eq 64 z
    rw [hk]
    exact hall k

/-- The comparison with the threshold comes out as over the integers exactly if the offset is
    safe. -/
theorem compare_iff {m z : ℤ} (hge : -2 ^ 63 ≤ m) (hlt : m < 2 ^ 63) :
    (m ≤ wrap 64 |wrap 64 z| ↔ m ≤ |z|) ↔ OffsetSafe m z := by
  unfold OffsetSafe
  by_cases hz : |z| < 2 ^ 63
  · rw [wrap_of_abs_lt hz]
    exact iff_of_true Iff.rfl (Or.inl hz)
  · have hshould : m ≤ |z| := by omega
    simp only [hz, false_or, hshould, iff_true]
    rw [← le_abs_wrap_iff, ne_eq, ← wrap_eq_min_iff]
    by_cases hmin : wrap 64 z = -2 ^ 63
    · have habs : wrap 64 |wrap 64 z| = -2 ^ 63 := by
        rw [hmin]
        decide
      have hmagnitude : m ≤ |wrap 64 z| := by
        rw [hmin]
        exact hlt.le.trans (by decide)
      rw [habs, and_iff_right hmagnitude, or_iff_right (not_not.mpr hmin)]
      exact ⟨fun hle => le_antisymm hle hge, fun heq => heq.le⟩
    · rw [wrap_abs_wrap hmin, and_iff_left (Or.inl hmin)]

/-! ## The rounds -/

theorem onDatagram_eq_some {p : Policy} {n : ℕ} {buf : List UInt8} {src : Text} {now : Reading}
    {t : Timespec} :
    (∃ delta, onDatagram p n buf src now = some (t, delta)) ↔
      accepts p n buf src = true ∧ p.minStepMs ≤ wrap 64 |deltaMs (decode buf) now| ∧
        t = decode buf := by
  unfold onDatagram
  dsimp only
  split_ifs with hrejects hsmall
  · simp [hrejects]
  · simp only [exists_false, false_iff]
    rintro ⟨-, hle, -⟩
    omega
  · have haccepts : accepts p n buf src = true := by simpa using hrejects
    simp [haccepts, not_lt.mp hsmall, eq_comm]

theorem round_eq_some {p : Policy} {buf : List UInt8} {r : Reception} {t : Timespec} :
    (∃ line, (round p buf r).2 = some (t, line)) ↔
      Poke p r.datagram r.ip ∧
        p.minStepMs ≤ wrap 64 |wrap 64 (exactOffset (decode r.datagram) r.now)| ∧
        t = decode r.datagram := by
  have hround : (∃ line, (round p buf r).2 = some (t, line)) ↔ ∃ delta,
      onDatagram p (recvFrom buf r.datagram).1 (recvFrom buf r.datagram).2 r.ip r.now =
        some (t, delta) := by
    have hmap : (round p buf r).2 =
        (onDatagram p (recvFrom buf r.datagram).1 (recvFrom buf r.datagram).2 r.ip r.now).map
          fun x => (x.1, consoleLog r x.2) := rfl
    rw [hmap]
    cases onDatagram p (recvFrom buf r.datagram).1 (recvFrom buf r.datagram).2 r.ip r.now with
    | none => simp
    | some x => simp [Prod.ext_iff]
  rw [hround, onDatagram_eq_some, accepts_iff]
  refine and_congr_right fun hpoke => ?_
  rw [deltaMs_eq, decode_recvFrom hpoke.length]

/-- The daemon sets the clock as it should, exactly if the datagram is no poke or its exact
    offset is safe. -/
theorem exact_round_iff {p : Policy} {buf : List UInt8} {r : Reception} :
    Exact p r (round p buf r).2 ↔ (Poke p r.datagram r.ip →
      OffsetSafe p.minStepMs (exactOffset (decode r.datagram) r.now)) := by
  rw [← compare_iff p.minStep_ge p.minStep_lt]
  unfold Exact
  simp only [round_eq_some]
  constructor
  · intro hsteps hpoke
    have hiff := hsteps (decode r.datagram)
    simpa [hpoke] using hiff
  · intro hcompare t
    refine and_congr_right fun hpoke => ?_
    rw [hcompare hpoke]

/-- In a run of the loop every datagram is handled in a round, with some buffer. -/
theorem pokeLoop_append (p : Policy) (buf : List UInt8) (before : List Reception) (r : Reception)
    (after : List Reception) :
    ∃ buf', (pokeLoop p buf (before ++ r :: after))[before.length]? = some (round p buf' r).2 := by
  induction before generalizing buf with
  | nil => exact ⟨buf, rfl⟩
  | cons r' before ih => exact ih (round p buf r').1

/-! ## The command line -/

/-- A daemon that runs does so under the options that its arguments have. -/
theorem run_eq_ok {bind : Text → Except Text Unit} {args : List Text} {rs : List Reception}
    {outs : List (Option (Timespec × Text))} (h : run bind args rs = .ok outs) :
    ∃ o, parseArgs .default args = .ok o ∧ outs = pokeLoop o.toPolicy (List.replicate 64 0) rs := by
  unfold run at h
  cases hargs : parseArgs .default args with
  | error e =>
    rw [hargs] at h
    cases h
  | ok o =>
    rw [hargs] at h
    refine ⟨o, rfl, ?_⟩
    change (match bind o.listen with
      | .error e => Except.error ("bind ".toList ++ o.listen ++ ": ".toList ++ e)
      | .ok () => Except.ok (pokeLoop o.toPolicy (List.replicate 64 0) rs)) = .ok outs at h
    split at h
    · cases h
    · exact (Except.ok.inj h).symm

/-- Under every command line that is accepted, the clock is set as it should be for a datagram
    exactly if that is no poke or its exact offset is safe. -/
theorem run_exact_iff {bind : Text → Except Text Unit} {args : List Text} {before : List Reception}
    {r : Reception} {after : List Reception} {outs : List (Option (Timespec × Text))}
    (h : run bind args (before ++ r :: after) = .ok outs) :
    ∃ o out, parseArgs .default args = .ok o ∧ outs[before.length]? = some out ∧
      (Exact o.toPolicy r out ↔ (Poke o.toPolicy r.datagram r.ip →
        OffsetSafe o.minStepMs (exactOffset (decode r.datagram) r.now))) := by
  obtain ⟨o, hargs, rfl⟩ := run_eq_ok h
  obtain ⟨buf, hout⟩ := pokeLoop_append o.toPolicy (List.replicate 64 0) before r after
  exact ⟨o, _, hargs, hout, exact_round_iff⟩

/-- As the guest runs it (guests/microvm.nix:373), the daemon heeds the host alone. -/
theorem run_allowFrom {bind : Text → Except Text Unit} {gateway : Text} {before : List Reception}
    {r : Reception} {after : List Reception} {outs : List (Option (Timespec × Text))}
    (h : run bind ["--allow-from".toList, gateway] (before ++ r :: after) = .ok outs)
    (hip : r.ip ≠ gateway) : outs[before.length]? = some none := by
  obtain ⟨o, hargs, rfl⟩ := run_eq_ok h
  obtain ⟨buf, hout⟩ := pokeLoop_append o.toPolicy (List.replicate 64 0) before r after
  have hallow : o.allowFrom = some gateway := by
    obtain rfl := Except.ok.inj hargs
    rfl
  rw [hout]
  cases hround : (round o.toPolicy buf r).2 with
  | none => rfl
  | some x =>
    obtain ⟨hpoke, -, -⟩ := round_eq_some.mp ⟨x.2, hround⟩
    exact absurd (hpoke.allowed gateway hallow) hip

end Kubenyx.Clockstep
