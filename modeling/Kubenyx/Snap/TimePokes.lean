import Kubenyx.Clockstep.Poke

/-!
# Time pokes

Model of `send_time_pokes` (kubenyx-snap lib.rs:236-254), which tells a restored guest the time
of the host, and of what `kubenyx-clockstep` in the guest makes of it.

* `decode_packet`: the two sides agree on the layout of a packet.
* `pokeLoop_exact_iff`: the guest's clock is set exactly when it should be, as long as no offset
  wraps around to a small one.
-/

namespace Kubenyx.Snap

open Kubenyx.Common
open Kubenyx.Clockstep

/-- The time of the host since the epoch; `SystemTime` counts the seconds in an `i64`. -/
structure HostTime where
  secs : ℕ
  nanos : ℕ
  secs_lt : secs < 2 ^ 63
  nanos_lt : nanos < 10 ^ 9

def HostTime.timespec (t : HostTime) : Timespec := ⟨t.secs, t.nanos⟩

/-- A packet (lib.rs:243-246). -/
def packet (now : HostTime) : List UInt8 :=
  "KNXT1".toList.map (fun c => UInt8.ofNat c.toNat) ++ leBytes 8 (wrap 64 now.secs) ++
    leBytes 4 (wrap 32 now.nanos)

/-- `send_time_pokes` (lib.rs:236-254): the packets that are sent, or the warning. The clock is
    read before each of them. -/
def sendTimePokes (bind : Bool) (count : ℕ) (clock : ℕ → HostTime) : Except Text (List (List UInt8)) :=
  if bind then .ok ((List.range count).map fun i => packet (clock i))
  else .error "kubenyx-snap: warning: cannot bind poke socket".toList

/-! ## The layout -/

theorem length_packet (now : HostTime) : (packet now).length = 17 := by
  unfold packet
  rw [List.length_append, List.length_append, length_leBytes, length_leBytes]
  rfl

/-- A packet is read as the time that it was made of. -/
theorem decode_packet (now : HostTime) : decode (packet now) = now.timespec := by
  have hsecs := now.secs_lt
  have hnanos := now.nanos_lt
  have hmagic : ("KNXT1".toList.map fun c => UInt8.ofNat c.toNat).length = 5 := rfl
  have hsec : leInt (leBytes 8 (wrap 64 now.secs)) = now.secs := by
    rw [wrap_eq_self (by omega) (by omega)]
    exact leInt_leBytes (by omega) (by omega)
  have hnsec : leInt (leBytes 4 (wrap 32 now.nanos)) = now.nanos := by
    rw [wrap_eq_self (by omega) (by omega)]
    exact leInt_leBytes (by omega) (by omega)
  have hslice : slice (packet now) 5 13 = leBytes 8 (wrap 64 now.secs) := by
    unfold slice packet
    rw [List.append_assoc, List.take_append, List.drop_append, hmagic]
    simp [length_leBytes]
  have hslice' : slice (packet now) 13 17 = leBytes 4 (wrap 32 now.nanos) := by
    unfold slice
    rw [List.take_of_length_le (length_packet now).le]
    unfold packet
    rw [List.drop_append]
    simp [length_leBytes]
  unfold decode HostTime.timespec
  rw [hslice, hslice', hsec, hnsec]

/-- Every packet that is sent is read as the time of the host when it was made. -/
theorem decode_sendTimePokes {count : ℕ} {clock : ℕ → HostTime} {packets : List (List UInt8)}
    (h : sendTimePokes true count clock = .ok packets) :
    packets.map decode = (List.range count).map fun i => (clock i).timespec := by
  obtain rfl := Except.ok.inj h
  rw [List.map_map]
  exact List.map_congr_left fun i _ => decode_packet (clock i)

/-! ## The guest -/

/-- In every run of the loop a datagram sets the clock exactly when it should, and every packet
    of the sender is read as its time, if and only if the datagram is no poke or its offset is
    safe. -/
theorem pokeLoop_exact_iff (p : Policy) (buf : List UInt8) (before : List Reception) (r : Reception)
    (after : List Reception) :
    (∃ out, (pokeLoop p buf (before ++ r :: after))[before.length]? = some out ∧ Exact p r out ∧
        ∀ count clock, ∃ packets, sendTimePokes true count clock = .ok packets ∧
          packets.map decode = (List.range count).map fun i => (clock i).timespec) ↔
      (Poke p r.datagram r.ip →
        OffsetSafe p.minStepMs (exactOffset (decode r.datagram) r.now)) := by
  obtain ⟨buf', hout⟩ := pokeLoop_append p buf before r after
  rw [hout, ← @exact_round_iff p buf' r]
  constructor
  · rintro ⟨out, hsame, hexact, -⟩
    obtain rfl := Option.some.inj hsame
    exact hexact
  · intro hexact
    exact ⟨_, rfl, hexact, fun count clock => ⟨_, rfl, decode_sendTimePokes rfl⟩⟩

/-- The defaults of the daemon. -/
def defaultPolicy : Policy := Options.default.toPolicy

/-- A guest in November 2023. -/
def guestNow : Reading := ⟨⟨1700000000, 0⟩, by norm_num, by norm_num, by norm_num, by norm_num⟩

/-- A time that is 2^61 seconds later. -/
def farAhead : HostTime := ⟨1700000000 + 2 ^ 61, 0, by norm_num, by norm_num⟩

def farPoke : Reception :=
  ⟨packet farAhead, "10.100.0.1".toList, "10.100.0.1:40000".toList, guestNow, .ok ()⟩

/-- The offset is 125 times 2^64 milliseconds, which wraps around to zero: the daemon takes the
    clock to be right. -/
theorem far_poke_ignored :
    Poke defaultPolicy farPoke.datagram farPoke.ip ∧
      defaultPolicy.minStepMs ≤ |exactOffset (decode farPoke.datagram) farPoke.now| ∧
      pokeLoop defaultPolicy (List.replicate 64 0) [farPoke] = [none] ∧
      ¬ Exact defaultPolicy farPoke none := by
  have hdecode : decode farPoke.datagram = ⟨1700000000 + 2 ^ 61, 0⟩ := decode_packet farAhead
  have hpoke : Poke defaultPolicy farPoke.datagram farPoke.ip := by
    refine ⟨(length_packet farAhead).ge, by decide, by simp [defaultPolicy, Options.default], ?_, ?_, ?_⟩
    · rw [hdecode]
      norm_num
    · rw [hdecode]
    · rw [hdecode]
      norm_num
  have hoffset : defaultPolicy.minStepMs ≤ |exactOffset (decode farPoke.datagram) farPoke.now| := by
    rw [hdecode]
    decide
  refine ⟨hpoke, hoffset, by decide, fun hexact => ?_⟩
  obtain ⟨line, hline⟩ := (hexact _).mpr ⟨hpoke, hoffset, rfl⟩
  cases hline

end Kubenyx.Snap
