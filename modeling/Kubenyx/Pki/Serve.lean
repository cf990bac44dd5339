import Kubenyx.Common.Encoding

/-!
# The CA hand-off

Model of `serve_conn` and `serve_loop` (lib.rs:891-957). The launcher of a mesh with
`N` servers runs `kubenyx-pki serve --count N` on the host bridge, and every server
fetches the bundle with a retrying `curl`.

A connection is what the socket calls on it return. A read that the peer never answers
times out, so a list of the results that come before is enough.

* `serveConn_ok_iff`: a connection counts when the whole response went out and the peer
  then ended its side.
* `serveLoop_spec`: the loop returns after the connection that makes `count` of these.
* `serveLoop_serves_all_iff`: these are transfers to `N` different servers exactly when
  no server completes a second one among them.
-/

namespace Kubenyx.Pki

open Kubenyx.Common

/-! ## One connection -/

/-- What the calls on an accepted socket return. -/
structure Conn (S : Type) where
  /-- The server at the other end. -/
  peer : S
  /-- `set_read_timeout` succeeds. -/
  setReadTimeout : Bool
  /-- The results of the reads in turn: `none` is an error, an empty result is the end
      of the stream. Every read after these times out. -/
  reads : List (Option (List UInt8))
  /-- How many bytes the socket takes before a write fails; `none` if none fails. -/
  takes : Option ℕ
  /-- `shutdown(Write)` succeeds. -/
  shutdown : Bool
  deriving DecidableEq

/-- `b"\r\n\r\n"`. -/
def BLANK_LINE : List UInt8 := [13, 10, 13, 10]

/-- The head of the response (lib.rs:917-919). -/
def RESPONSE_HEAD : List UInt8 :=
  utf8 "HTTP/1.0 200 OK\r\nContent-Type: application/x-tar\r\nConnection: close\r\n\r\n".toList

/-- The loop that drains the request (lib.rs:901-912): the reads that are left. -/
def drainRequest (req : List UInt8) : List (Option (List UInt8)) → List (Option (List UInt8))
  | [] => []
  | none :: reads => reads
  | some [] :: reads => reads
  | some (b :: bs) :: reads =>
    if BLANK_LINE <:+: req ++ b :: bs ∨ 8192 < (req ++ b :: bs).length then reads
    else drainRequest (req ++ b :: bs) reads

/-- `while s.read(&mut buf)? > 0 {}` (lib.rs:924): the end of the stream is reached
    without an error. -/
def awaitEof : List (Option (List UInt8)) → Bool
  | [] => false
  | none :: _ => false
  | some [] :: _ => true
  | some (_ :: _) :: reads => awaitEof reads

/-- `write_all`, with `sent` written before: what is written then, and whether it is
    everything. -/
def writeAll (takes : Option ℕ) (sent bytes : List UInt8) : List UInt8 × Bool :=
  match takes with
  | none => (sent ++ bytes, true)
  | some n => ((sent ++ bytes).take n, decide ((sent ++ bytes).length ≤ n))

/-- `serve_conn` (lib.rs:895-926): the bytes written and whether the result is `Ok`. -/
def serveConn {S : Type} (c : Conn S) (payload : List UInt8) : List UInt8 × Bool :=
  let reads := drainRequest [] c.reads
  let head := writeAll c.takes [] RESPONSE_HEAD
  let body := writeAll c.takes head.1 payload
  if !c.setReadTimeout then ([], false)
  else if !head.2 then (head.1, false)
  else if !body.2 then (body.1, false)
  else if !c.shutdown then (body.1, false)
  else (body.1, awaitEof reads)

/-- The transfer is complete: the whole response is written, and the peer ends its side
    after the half-close. -/
structure Conn.Completed {S : Type} (c : Conn S) (payload : List UInt8) : Prop where
  sent : (serveConn c payload).1 = RESPONSE_HEAD ++ payload
  halfClosed : c.shutdown = true
  eof : awaitEof (drainRequest [] c.reads) = true

theorem writeAll_ok {takes : Option ℕ} {sent bytes : List UInt8}
    (h : (writeAll takes sent bytes).2 = true) : (writeAll takes sent bytes).1 = sent ++ bytes := by
  unfold writeAll at h ⊢
  cases takes with
  | none => rfl
  | some n => exact List.take_of_length_le (of_decide_eq_true h)

theorem writeAll_failed {takes : Option ℕ} {sent bytes : List UInt8}
    (h : (writeAll takes sent bytes).2 = false) :
    (writeAll takes sent bytes).1.length < sent.length + bytes.length := by
  unfold writeAll at h ⊢
  cases takes with
  | none => exact absurd h (by simp)
  | some n =>
    have hn : n < (sent ++ bytes).length := not_le.mp (of_decide_eq_false h)
    rw [List.length_append] at hn
    simp only [List.length_take, List.length_append]
    omega

theorem RESPONSE_HEAD_length_pos : 0 < RESPONSE_HEAD.length := by
  decide

/-- A connection that failed before the whole response was out. -/
theorem serveConn_short {S : Type} {c : Conn S} {payload sent : List UInt8}
    (heq : serveConn c payload = (sent, false))
    (hlt : sent.length < RESPONSE_HEAD.length + payload.length) :
    (serveConn c payload).2 = true ↔ c.Completed payload := by
  constructor
  · intro h
    rw [heq] at h
    exact absurd h (by simp)
  · intro h
    have hsent := h.sent
    rw [heq] at hsent
    rw [show sent = RESPONSE_HEAD ++ payload from hsent, List.length_append] at hlt
    omega

/-- A connection counts exactly when its transfer is complete. -/
theorem serveConn_ok_iff {S : Type} (c : Conn S) (payload : List UInt8) :
    (serveConn c payload).2 = true ↔ c.Completed payload := by
  by_cases htime : c.setReadTimeout = true
  · by_cases hhead : (writeAll c.takes [] RESPONSE_HEAD).2 = true
    · have hsent : (writeAll c.takes [] RESPONSE_HEAD).1 = RESPONSE_HEAD := writeAll_ok hhead
      by_cases hbody : (writeAll c.takes RESPONSE_HEAD payload).2 = true
      · have hall := writeAll_ok hbody
        by_cases hshut : c.shutdown = true
        · have heq : serveConn c payload =
              (RESPONSE_HEAD ++ payload, awaitEof (drainRequest [] c.reads)) := by
            simp [serveConn, htime, hhead, hsent, hbody, hshut, hall]
          rw [heq]
          exact ⟨fun heof => ⟨by rw [heq], hshut, heof⟩, fun h => h.eof⟩
        · have hfail : (serveConn c payload).2 = false := by
            simp [serveConn, htime, hhead, hsent, hbody, hshut]
          rw [hfail]
          exact ⟨fun h => absurd h (by simp), fun h => absurd h.halfClosed hshut⟩
      · have heq : serveConn c payload = ((writeAll c.takes RESPONSE_HEAD payload).1, false) := by
          simp [serveConn, htime, hhead, hsent, hbody]
        exact serveConn_short heq (writeAll_failed (Bool.eq_false_iff.mpr hbody))
    · have heq : serveConn c payload = ((writeAll c.takes [] RESPONSE_HEAD).1, false) := by
        simp [serveConn, htime, hhead]
      have hlt := writeAll_failed (Bool.eq_false_iff.mpr hhead)
      rw [List.length_nil, Nat.zero_add] at hlt
      exact serveConn_short heq (Nat.lt_add_right _ hlt)
  · have heq : serveConn c payload = ([], false) := by
      simp [serveConn, htime]
    exact serveConn_short heq (Nat.lt_add_right _ RESPONSE_HEAD_length_pos)

/-! ## The accept loop -/

variable {S : Type}

/-- `serve_loop` (lib.rs:933-957) on the results of `accept`, `none` an error: how many
    of them it takes until it returns; `none` if it still waits after all of them.
    `done` stays below `count`, so its increment does not overflow. -/
def serveLoop (payload : List UInt8) (count : Option ℕ) :
    (done : ℕ) → List (Option (Conn S)) → Option ℕ
  | _, [] => none
  | done, none :: accepts => (serveLoop payload count done accepts).map (· + 1)
  | done, some c :: accepts =>
    let done := if (serveConn c payload).2 then done + 1 else done
    if count.any fun n => decide (n ≤ done) then some 1
    else (serveLoop payload count done accepts).map (· + 1)

/-- The peers of the connections that count, in order. -/
def completedPeers (payload : List UInt8) (accepts : List (Option (Conn S))) : List S :=
  accepts.filterMap fun a =>
    a.bind fun c => if (serveConn c payload).2 then some c.peer else none

theorem completedPeers_cons (payload : List UInt8) (a : Option (Conn S))
    (accepts : List (Option (Conn S))) :
    completedPeers payload (a :: accepts) =
      completedPeers payload [a] ++ completedPeers payload accepts :=
  List.filterMap_append (l := [a])

@[simp] theorem completedPeers_accept_error (payload : List UInt8) :
    completedPeers payload ([none] : List (Option (Conn S))) = [] := rfl

theorem completedPeers_singleton (payload : List UInt8) (c : Conn S) :
    completedPeers payload [some c] = if (serveConn c payload).2 then [c.peer] else [] := by
  cases hok : (serveConn c payload).2 <;> simp [completedPeers, hok]

/-- A peer is counted when one of its transfers is complete. -/
theorem mem_completedPeers {payload : List UInt8} {accepts : List (Option (Conn S))} {i : S} :
    i ∈ completedPeers payload accepts ↔
      ∃ c, some c ∈ accepts ∧ c.peer = i ∧ (serveConn c payload).2 = true := by
  simp only [completedPeers, List.mem_filterMap, Option.bind_eq_some_iff]
  constructor
  · rintro ⟨a, ha, c, rfl, hc⟩
    split_ifs at hc with hok
    exact ⟨c, ha, Option.some.inj hc, hok⟩
  · rintro ⟨c, ha, rfl, hok⟩
    exact ⟨some c, ha, c, rfl, if_pos hok⟩

/-- What the loop does with `k` transfers to go: it still waits when there are fewer, and
    otherwise it has taken the connections up to the `k`-th complete transfer. -/
def LoopSpec (payload : List UInt8) (accepts : List (Option (Conn S))) (k : ℕ) : Option ℕ → Prop
  | none => (completedPeers payload accepts).length < k
  | some n => k ≤ (completedPeers payload accepts).length ∧
      completedPeers payload (accepts.take n) = (completedPeers payload accepts).take k

theorem LoopSpec.cons {payload : List UInt8} {accepts : List (Option (Conn S))} {k : ℕ}
    {ret : Option ℕ} (h : LoopSpec payload accepts k ret) (a : Option (Conn S)) :
    LoopSpec payload (a :: accepts) ((completedPeers payload [a]).length + k)
      (ret.map (· + 1)) := by
  have hcons := completedPeers_cons payload a
  match ret with
  | none =>
    show (completedPeers payload (a :: accepts)).length < _
    rw [hcons accepts, List.length_append]
    exact Nat.add_lt_add_left h _
  | some n =>
    show _ ≤ (completedPeers payload (a :: accepts)).length ∧
      completedPeers payload (a :: accepts.take n) = _
    rw [hcons accepts, hcons (accepts.take n), List.length_append, List.take_length_add_append, h.2]
    exact ⟨Nat.add_le_add_left h.1 _, rfl⟩

/-- The loop returns after the connection that makes `N` complete transfers: by
    induction on the accepted connections, with `N - done` transfers to go. -/
theorem serveLoop_spec (payload : List UInt8) {N : ℕ} (accepts : List (Option (Conn S))) :
    ∀ {done : ℕ}, done < N →
      LoopSpec payload accepts (N - done) (serveLoop payload (some N) done accepts) := by
  induction accepts with
  | nil =>
    intro done hd
    show 0 < N - done
    omega
  | cons a accepts ih =>
    intro done hd
    match a with
    | none =>
      have hrest := (ih hd).cons none
      rw [completedPeers_accept_error, List.length_nil, Nat.zero_add] at hrest
      exact hrest
    | some c =>
      have hpeer := completedPeers_singleton payload c
      cases hok : (serveConn c payload).2 with
      | false =>
        have hrest := (ih hd).cons (some c)
        rw [hpeer, hok, if_neg Bool.false_ne_true, List.length_nil, Nat.zero_add] at hrest
        rw [serveLoop, hok]
        simpa [not_le.mpr hd] using hrest
      | true =>
        rw [hok, if_pos rfl] at hpeer
        rw [serveLoop, hok]
        by_cases hlast : N ≤ done + 1
        · -- this transfer is the last one asked for
          obtain rfl : N = done + 1 := by omega
          simp [LoopSpec, completedPeers_cons payload _ accepts, hpeer]
        · have hrest := (ih (not_le.mp hlast)).cons (some c)
          rw [hpeer, List.length_singleton, show 1 + (N - (done + 1)) = N - done by omega] at hrest
          simpa [hlast] using hrest

/-- A list of `N` of the servers has every one of them exactly when it has none twice. -/
theorem forall_mem_iff_nodup {N : ℕ} {peers : List (Fin N)} (hlen : peers.length = N) :
    (∀ i, i ∈ peers) ↔ peers.Nodup := by
  rw [← Multiset.coe_nodup, ← Multiset.toFinset_card_eq_card_iff_nodup, Multiset.coe_card, hlen]
  have hcard : (peers : Multiset (Fin N)).toFinset.card = N ↔
      (peers : Multiset (Fin N)).toFinset = Finset.univ := by
    rw [← Finset.card_eq_iff_eq_univ, Fintype.card_fin]
  rw [hcard, Finset.eq_univ_iff_forall]
  simp

/-- When `serve_loop --count N` has returned, every one of the `N` servers has completed a
    transfer of the whole bundle, exactly if the first `N` completed transfers went to `N`
    different servers: the loop counts transfers and never looks at who they went to. -/
theorem serveLoop_serves_all_iff {N : ℕ} (hN : 1 ≤ N) (payload : List UInt8)
    (accepts : List (Option (Conn (Fin N)))) :
    (∀ n, serveLoop payload (some N) 0 accepts = some n →
      ∀ i : Fin N, ∃ c, some c ∈ accepts.take n ∧ c.peer = i ∧ c.Completed payload) ↔
    (N ≤ (completedPeers payload accepts).length →
      ((completedPeers payload accepts).take N).Nodup) := by
  have hloop := serveLoop_spec payload accepts (Nat.lt_of_lt_of_le Nat.zero_lt_one hN)
  rw [Nat.sub_zero] at hloop
  have hserved : ∀ n, (∀ i : Fin N, ∃ c, some c ∈ accepts.take n ∧ c.peer = i ∧
      c.Completed payload) ↔ ∀ i, i ∈ completedPeers payload (accepts.take n) := by
    intro n
    simp only [mem_completedPeers, serveConn_ok_iff]
  cases hret : serveLoop payload (some N) 0 accepts with
  | none =>
    rw [hret] at hloop
    exact ⟨fun _ hle => absurd hle (not_le.mpr hloop), fun _ n h => absurd h (by simp)⟩
  | some n =>
    rw [hret] at hloop
    have hlen : ((completedPeers payload accepts).take N).length = N :=
      List.length_take_of_le hloop.1
    simp only [Option.some.injEq, forall_eq', hserved, hloop.1, true_implies, hloop.2]
    exact forall_mem_iff_nodup hlen

/-- A connection on which everything succeeds: a request, then the end of the stream. -/
def Conn.clean (peer : S) : Conn S where
  peer := peer
  setReadTimeout := true
  reads := [some BLANK_LINE, some []]
  takes := none
  shutdown := true

/-- Two servers fetch in turn, the first after a failed try. -/
theorem serveLoop_serves_all_iff_retry :
    serveLoop [7] (some 2) 0
        [some { Conn.clean (0 : Fin 2) with shutdown := false }, some (Conn.clean 0), none,
          some (Conn.clean 1)] = some 4 ∧
      ∀ i : Fin 2, ∃ c, some c ∈ [some { Conn.clean (0 : Fin 2) with shutdown := false },
          some (Conn.clean 0), none, some (Conn.clean 1)] ∧ c.peer = i ∧ c.Completed [7] := by
  have hret : serveLoop [7] (some 2) 0
      [some { Conn.clean (0 : Fin 2) with shutdown := false }, some (Conn.clean 0), none,
        some (Conn.clean 1)] = some 4 := by decide +kernel
  refine ⟨hret, (serveLoop_serves_all_iff (by decide) [7] _).mpr ?_ 4 hret⟩
  intro _
  decide +kernel

/-- The first server fetches twice: the loop returns, and the second has nothing. -/
theorem serveLoop_repeat_starves :
    ¬ ∀ (N : ℕ), 1 ≤ N → ∀ (payload : List UInt8) (accepts : List (Option (Conn (Fin N)))) (n : ℕ),
      serveLoop payload (some N) 0 accepts = some n →
        ∀ i : Fin N, ∃ c, some c ∈ accepts.take n ∧ c.peer = i ∧ c.Completed payload := by
  intro h
  obtain ⟨c, hmem, hpeer, -⟩ := h 2 (by decide) [7] [some (Conn.clean 0), some (Conn.clean 0)] 2
    (by decide +kernel) 1
  have hc : c = Conn.clean 0 := by simpa using hmem
  rw [hc] at hpeer
  exact absurd hpeer (by decide)

end Kubenyx.Pki
