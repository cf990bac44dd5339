import Kubenyx.Quorum.MemberGuard
import Kubenyx.Quorum.Reconcile

/-!
# Bootstrap or join

Model of the two loops of `etcdJoinProbe` (modules/datastore.nix:190-327), of which the exit and
the environment file are in `Kubenyx.Quorum.MemberGuard`: the sweeps over the other declared
servers until one of them is healthy, all of them have refused often enough or the window is
over; and, once one is healthy, the rounds that ask for the member list until this node is in it.
What curl and etcdctl return, and the readings of the clock, are inputs.

* `probeLoop_cases`: what the first loop has seen when it ends.
* `renderJoin_members`: what `render_join` makes of a member list.
* `joinProbe_safe`: a server whose data directory is empty bootstraps only if it has heard of no
  healthy server, and otherwise joins the members that a server has listed; only beside founders
  that have not started does it use the declaration after it has heard of one.
-/

namespace Kubenyx.Quorum

open Kubenyx.Common Kubenyx.Common.Shell

/-! ## The sweeps -/

/-- What probing an endpoint comes to: the exit status of curl, and whether `endpoint health`
    succeeds. -/
structure PeerAnswer where
  rc : ℕ
  healthy : Bool
  deriving DecidableEq

/-- A pass of the loop: the clock at its head, and the answers of the endpoints in order. -/
structure Sweep where
  now : ℕ
  answers : List (Text × PeerAnswer)

inductive SweepEnd where
  | healthy (ep : Text)
  | allRefused
  | mixed
  deriving DecidableEq

/-- The loop over the endpoints (datastore.nix:213-251); curl exits with 7 if the connection is
    refused and with 28 if it times out. -/
def sweep (allRefused : Bool) : List (Text × PeerAnswer) → SweepEnd
  | [] => if allRefused then .allRefused else .mixed
  | (ep, a) :: rest =>
    if a.rc = 7 then sweep allRefused rest
    else if a.rc = 28 then sweep false rest
    else if a.healthy then .healthy ep
    else sweep false rest

inductive ProbeEnd where
  | healthy (ep : Text)
  | allRefused (sweeps : ℕ)
  | noAnswer
  deriving DecidableEq

/-- The loop over the sweeps (datastore.nix:210-264); `none` if it has not ended yet. -/
def probeLoop (deadline streak : ℕ) : List Sweep → Option ProbeEnd
  | [] => none
  | s :: rest =>
    if s.now < deadline then
      match sweep true s.answers with
      | .healthy ep => some (.healthy ep)
      | .allRefused =>
        if 5 ≤ streak + 1 then some (.allRefused (streak + 1))
        else probeLoop deadline (streak + 1) rest
      | .mixed => probeLoop deadline 0 rest
    else some .noAnswer

/-- Some endpoint of the sweep answers, and is healthy. -/
def Sweep.Hears (s : Sweep) (ep : Text) : Prop :=
  ∃ a, (ep, a) ∈ s.answers ∧ a.rc ≠ 7 ∧ a.rc ≠ 28 ∧ a.healthy = true

/-- All endpoints of the sweep refuse the connection. -/
def Sweep.Refused (s : Sweep) : Prop := ∀ e ∈ s.answers, e.2.rc = 7

theorem sweep_healthy {allRefused : Bool} {answers : List (Text × PeerAnswer)} {ep : Text}
    (h : sweep allRefused answers = .healthy ep) :
    ∃ a, (ep, a) ∈ answers ∧ a.rc ≠ 7 ∧ a.rc ≠ 28 ∧ a.healthy = true := by
  induction answers generalizing allRefused with
  | nil =>
    rw [sweep] at h
    split_ifs at h
  | cons e rest ih =>
    obtain ⟨ep', a⟩ := e
    rw [sweep] at h
    split_ifs at h with h7 h28 hhealthy
    · obtain ⟨b, hb, hrest⟩ := ih h
      exact ⟨b, List.mem_cons_of_mem _ hb, hrest⟩
    · obtain ⟨b, hb, hrest⟩ := ih h
      exact ⟨b, List.mem_cons_of_mem _ hb, hrest⟩
    · obtain rfl := SweepEnd.healthy.inj h
      exact ⟨a, List.mem_cons_self, h7, h28, hhealthy⟩
    · obtain ⟨b, hb, hrest⟩ := ih h
      exact ⟨b, List.mem_cons_of_mem _ hb, hrest⟩

/-- A sweep that finds nobody healthy hears of nobody. -/
theorem sweep_unheard {allRefused : Bool} {answers : List (Text × PeerAnswer)}
    (h : ∀ ep, sweep allRefused answers ≠ .healthy ep) :
    ∀ e ∈ answers, ¬ (e.2.rc ≠ 7 ∧ e.2.rc ≠ 28 ∧ e.2.healthy = true) := by
  induction answers generalizing allRefused with
  | nil => simp
  | cons e rest ih =>
    obtain ⟨ep, a⟩ := e
    rw [sweep] at h
    by_cases h7 : a.rc = 7
    · simp only [h7, if_true] at h
      exact List.forall_mem_cons.mpr ⟨by simp [h7], ih h⟩
    · simp only [h7, if_false] at h
      by_cases h28 : a.rc = 28
      · simp only [h28, if_true] at h
        exact List.forall_mem_cons.mpr ⟨by simp [h28], ih h⟩
      · simp only [h28, if_false] at h
        by_cases hhealthy : a.healthy = true
        · simp only [hhealthy, if_true] at h
          exact absurd rfl (h ep)
        · simp only [hhealthy, if_false, Bool.false_eq_true] at h
          exact List.forall_mem_cons.mpr ⟨by simp [hhealthy], ih h⟩

theorem sweep_refused {allRefused : Bool} {answers : List (Text × PeerAnswer)}
    (h : sweep allRefused answers = .allRefused) : allRefused = true ∧ ∀ e ∈ answers, e.2.rc = 7 := by
  induction answers generalizing allRefused with
  | nil =>
    rw [sweep] at h
    split_ifs at h with hall
    exact ⟨hall, by simp⟩
  | cons e rest ih =>
    obtain ⟨ep, a⟩ := e
    rw [sweep] at h
    split_ifs at h with h7 h28
    · obtain ⟨hall, hrest⟩ := ih h
      exact ⟨hall, List.forall_mem_cons.mpr ⟨h7, hrest⟩⟩
    · exact absurd (ih h).1 (by simp)
    · exact absurd (ih h).1 (by simp)

/-- Nobody healthy was heard of. -/
def Unheard (sweeps : List Sweep) : Prop := ∀ s ∈ sweeps, ∀ ep, ¬ s.Hears ep

theorem unheard_of_sweep {s : Sweep} (h : ∀ ep, sweep true s.answers ≠ .healthy ep) :
    ∀ ep, ¬ s.Hears ep := by
  rintro ep ⟨a, ha, hheard⟩
  exact sweep_unheard h _ ha hheard

/-- So many refusals in a row at the end of the first sweeps. -/
def RefusedInARow (n : ℕ) (sweeps : List Sweep) : Prop :=
  ∃ before row, sweeps = before ++ row ∧ row.length = n ∧ ∀ s ∈ row, s.Refused

/-- What has been seen when the loop ends in its sweep `s`, after the sweeps `before`. -/
def ProbeEnd.SeenIn (deadline : ℕ) (before : List Sweep) (s : Sweep) : ProbeEnd → Prop
  | .healthy ep => s.now < deadline ∧ s.Hears ep
  | .allRefused n => 5 ≤ n ∧ s.now < deadline ∧ (∀ ep, ¬ s.Hears ep) ∧
    RefusedInARow n (before ++ [s])
  | .noAnswer => deadline ≤ s.now

theorem RefusedInARow.succ {n : ℕ} {sweeps : List Sweep} (h : RefusedInARow n sweeps) {s : Sweep}
    (hs : s.Refused) : RefusedInARow (n + 1) (sweeps ++ [s]) := by
  obtain ⟨before, row, rfl, hlen, hrow⟩ := h
  refine ⟨before, row ++ [s], by rw [List.append_assoc], by simp [hlen], ?_⟩
  exact List.forall_mem_append.mpr ⟨hrow, List.forall_mem_singleton.mpr hs⟩

theorem refusedInARow_zero (sweeps : List Sweep) : RefusedInARow 0 sweeps :=
  ⟨sweeps, [], by simp, rfl, by simp⟩

theorem Unheard.succ {sweeps : List Sweep} (h : Unheard sweeps) {s : Sweep}
    (hs : ∀ ep, ¬ s.Hears ep) : Unheard (sweeps ++ [s]) :=
  List.forall_mem_append.mpr ⟨h, List.forall_mem_singleton.mpr hs⟩

/-- When the loop ends, nobody healthy was heard of in a sweep before the last one. -/
theorem probeLoop_cases {deadline streak : ℕ} {made rest : List Sweep} {r : ProbeEnd}
    (hunheard : Unheard made) (hrow : RefusedInARow streak made)
    (h : probeLoop deadline streak rest = some r) :
    ∃ before s after, rest = before ++ s :: after ∧ Unheard (made ++ before) ∧
      r.SeenIn deadline (made ++ before) s := by
  induction rest generalizing made streak with
  | nil => exact absurd h (by simp [probeLoop])
  | cons s rest ih =>
    rw [probeLoop] at h
    by_cases hnow : s.now < deadline
    · rw [if_pos hnow] at h
      cases hsweep : sweep true s.answers with
      | healthy ep =>
        simp only [hsweep, Option.some.injEq] at h
        subst h
        exact ⟨[], s, rest, rfl, by simpa using hunheard, hnow, sweep_healthy hsweep⟩
      | allRefused =>
        simp only [hsweep] at h
        have hnone : ∀ ep, ¬ s.Hears ep := unheard_of_sweep fun ep => by simp [hsweep]
        have hnext := hrow.succ (sweep_refused hsweep).2
        by_cases hfive : 5 ≤ streak + 1
        · rw [if_pos hfive] at h
          obtain rfl := Option.some.inj h
          exact ⟨[], s, rest, rfl, by simpa using hunheard, hfive, hnow, hnone, by simpa using hnext⟩
        · rw [if_neg hfive] at h
          obtain ⟨before, t, after, hsplit, hun, hseen⟩ := ih (hunheard.succ hnone) hnext h
          rw [List.append_assoc, List.singleton_append] at hun hseen
          exact ⟨s :: before, t, after, by rw [hsplit, List.cons_append], hun, hseen⟩
      | mixed =>
        simp only [hsweep] at h
        have hnone : ∀ ep, ¬ s.Hears ep := unheard_of_sweep fun ep => by simp [hsweep]
        obtain ⟨before, t, after, hsplit, hun, hseen⟩ :=
          ih (hunheard.succ hnone) (refusedInARow_zero _) h
        rw [List.append_assoc, List.singleton_append] at hun hseen
        exact ⟨s :: before, t, after, by rw [hsplit, List.cons_append], hun, hseen⟩
    · rw [if_neg hnow] at h
      obtain rfl := Option.some.inj h
      exact ⟨[], s, rest, rfl, by simpa using hunheard, not_lt.mp hnow⟩

/-! ## The member list -/

/-- `ic`, `self_voting` and `nameless_other` in the loop over the rows. -/
structure RenderLoop where
  ic : Text
  selfVoting : Bool
  namelessOther : Bool
  deriving DecidableEq

/-- The body of that loop (datastore.nix:291-302). -/
def renderRow (selfName selfPeer : Text) (st : RenderLoop) (row : Text) : RenderLoop :=
  let name := awkField 3 row
  let peer := awkField 4 row
  let learner := awkField 6 row
  if peer = [] then st
  else
    let name' := if peer = selfPeer then selfName else name
    let entry := name' ++ '=' :: peer
    { ic := if st.ic = [] then entry else st.ic ++ ',' :: entry
      selfVoting := st.selfVoting || (decide (peer = selfPeer) && decide (learner ≠ "true".toList))
      namelessOther := st.namelessOther || (decide (peer ≠ selfPeer) && decide (name = [])) }

/-- What `render_join` returns: 1, 2, or a line on standard output. -/
inductive Render where
  | notYet
  | race
  | voting (ic : Text)
  | learner (ic : Text)
  deriving DecidableEq

/-- `render_join` (datastore.nix:284-314) on what `member list` prints, `none` if it fails. -/
def renderJoin (selfName selfPeer : Text) (list : Option Text) : Render :=
  match list with
  | none => .notYet
  | some list =>
    if grepF list selfPeer then
      let st := (list.splitOn '\n').foldl (renderRow selfName selfPeer) ⟨[], false, false⟩
      if st.namelessOther then if st.selfVoting then .race else .notYet
      else if st.selfVoting then .voting st.ic
      else .learner st.ic
    else .notYet

/-- The entry of a member in the initial cluster of this node. -/
def joinEntry (self : Server) (m : Member) : Text :=
  (if m.peer = self.peer then self.name else m.name) ++ '=' :: m.peer

/-- The initial cluster of this node: the current members, this one under its declared name. -/
def initialCluster (self : Server) (ms : List Member) : Text := joined ',' (ms.map (joinEntry self))

/-- This node is a voting member already. -/
def selfVoting (self : Server) (ms : List Member) : Bool :=
  ms.any fun m => m.peer = self.peer && !m.learner

/-- Another member has not started. -/
def namelessOther (self : Server) (ms : List Member) : Bool :=
  ms.any fun m => m.peer ≠ self.peer && !m.started

/-- The list has the peer URL of this node. -/
def listed (self : Server) (ms : List Member) : Bool := grepF (memberListText ms) self.peer

section render

variable {self : Server} {ms : List Member}

theorem joinEntry_ne_nil (m : Member) : joinEntry self m ≠ [] := by
  unfold joinEntry
  simp

theorem joined_eq_nil {es : List Text} (h : ∀ e ∈ es, e ≠ []) : joined ',' es = [] ↔ es = [] := by
  constructor
  · intro hnil
    cases es with
    | nil => rfl
    | cons e es =>
      have he := h e List.mem_cons_self
      cases es with
      | nil => exact absurd (by simpa [joined] using hnil) he
      | cons e' es =>
        rw [joined_cons_cons] at hnil
        exact absurd (List.append_eq_nil_iff.mp hnil).1 he
  · rintro rfl
    rfl

/-- The row of a member. -/
theorem renderRow_row {m : Member} (hm : m.WellFormed) {es : List Text} (hes : ∀ e ∈ es, e ≠ [])
    (voting nameless : Bool) :
    renderRow self.name self.peer ⟨joined ',' es, voting, nameless⟩ m.row =
      ⟨joined ',' (es ++ [joinEntry self m]),
        voting || (decide (m.peer = self.peer) && !m.learner),
        nameless || (decide (m.peer ≠ self.peer) && !m.started)⟩ := by
  have hname : awkField 3 m.row = m.name := by rw [awkField, hm.awkFields_row]; rfl
  have hpeer : awkField 4 m.row = m.peer := by rw [awkField, hm.awkFields_row]; rfl
  have hlearner : awkField 6 m.row = m.isLearner := by rw [awkField, hm.awkFields_row]; rfl
  have hvoting : decide (m.isLearner ≠ "true".toList) = !m.learner := by
    unfold Member.isLearner
    cases m.learner <;> decide
  have hstarted : decide (m.name = []) = !m.started := by simp [Member.started]
  unfold renderRow
  rw [hname, hpeer, hlearner, if_neg hm.peer_ne_nil, hvoting, hstarted]
  have hic : (if joined ',' es = [] then joinEntry self m
      else joined ',' es ++ ',' :: joinEntry self m) = joined ',' (es ++ [joinEntry self m]) := by
    by_cases hnil : es = []
    · subst hnil
      simp [joined]
    · rw [if_neg ((joined_eq_nil hes).not.mpr hnil), joined_append hnil (by simp)]
      simp [joined]
  rw [← hic]
  rfl

theorem renderRow_foldl (hms : ∀ m ∈ ms, m.WellFormed) {es : List Text} (hes : ∀ e ∈ es, e ≠ [])
    (voting nameless : Bool) :
    (ms.map Member.row).foldl (renderRow self.name self.peer) ⟨joined ',' es, voting, nameless⟩ =
      ⟨joined ',' (es ++ ms.map (joinEntry self)), voting || selfVoting self ms,
        nameless || namelessOther self ms⟩ := by
  induction ms generalizing es voting nameless with
  | nil => simp [selfVoting, namelessOther]
  | cons m ms ih =>
    obtain ⟨hm, hms⟩ := List.forall_mem_cons.mp hms
    have hes' : ∀ e ∈ es ++ [joinEntry self m], e ≠ [] :=
      List.forall_mem_append.mpr ⟨hes, List.forall_mem_singleton.mpr (joinEntry_ne_nil m)⟩
    rw [List.map_cons, List.foldl_cons, renderRow_row hm hes, ih hms hes']
    simp [selfVoting, namelessOther, Bool.or_assoc]

/-- What `render_join` makes of a member list: nothing before this node is listed or while
    another member has not started, unless this node is a voting member then; else the members. -/
theorem renderJoin_members (hms : ∀ m ∈ ms, m.WellFormed) :
    renderJoin self.name self.peer (some (memberListText ms)) =
      if listed self ms then
        if namelessOther self ms then if selfVoting self ms then .race else .notYet
        else if selfVoting self ms then .voting (initialCluster self ms)
        else .learner (initialCluster self ms)
      else .notYet := by
  have hloop : ((memberListText ms).splitOn '\n').foldl (renderRow self.name self.peer)
      ⟨[], false, false⟩ =
        ⟨initialCluster self ms, selfVoting self ms, namelessOther self ms⟩ := by
    by_cases hnil : ms = []
    · subst hnil
      rfl
    · rw [splitOn_memberListText hms hnil]
      exact renderRow_foldl hms (List.forall_mem_nil _) false false
  unfold renderJoin
  simp only [hloop]
  rfl

end render

/-! ## Waiting to be listed -/

/-- A pass of the loop that waits: the clock at its head, and the member lists of the endpoints in
    order, `none` where `member list` fails. -/
structure JoinRound where
  now : ℕ
  lists : List (Option (List Member))

/-- The loop over the endpoints (datastore.nix:302-324). -/
def joinRound (self : Server) : List (Option (List Member)) → Option Probing
  | [] => none
  | list :: rest =>
    match renderJoin self.name self.peer (list.map memberListText) with
    | .learner ic => some (.learner ic)
    | .voting ic => some (.voting ic)
    | .race => some .founderRace
    | .notYet => joinRound self rest

/-- The loop that waits (datastore.nix:300-327); `none` if it has not ended yet. -/
def joinLoop (self : Server) (deadline : ℕ) (healthyEp : Text) : List JoinRound → Option Probing
  | [] => none
  | r :: rest =>
    if r.now < deadline then
      match joinRound self r.lists with
      | some p => some p
      | none => joinLoop self deadline healthyEp rest
    else some (.neverListed healthyEp)

/-- What the script meets: the clock when the window is set, the sweeps, the clock when the wait
    begins, and its rounds. -/
structure Observed where
  start : ℕ
  sweeps : List Sweep
  joinStart : ℕ
  rounds : List JoinRound

/-- What probing comes to with a window of so many seconds; `none` if it has not ended yet. -/
def probing (self : Server) (joinProbeSec : ℕ) (o : Observed) : Option Probing :=
  match probeLoop (o.start + joinProbeSec) 0 o.sweeps with
  | none => none
  | some (.allRefused n) => some (.allRefused n)
  | some .noAnswer => some .noAnswer
  | some (.healthy ep) => joinLoop self (o.joinStart + 300) ep o.rounds

/-- The members are well formed in every list that is read. -/
def Observed.WellFormed (o : Observed) : Prop :=
  ∀ r ∈ o.rounds, ∀ ms, some ms ∈ r.lists → ∀ m ∈ ms, m.WellFormed

/-- An endpoint listed these members. -/
def Observed.Lists (o : Observed) (ms : List Member) : Prop := ∃ r ∈ o.rounds, some ms ∈ r.lists

/-- No healthy server was heard of up to the end of the sweeps, which was the end of the window,
    or the fifth sweep in a row in which all servers refused. -/
def Fresh (joinProbeSec : ℕ) (o : Observed) : Prop :=
  ∃ before s after, o.sweeps = before ++ s :: after ∧ Unheard before ∧
    (o.start + joinProbeSec ≤ s.now ∨ (∀ ep, ¬ s.Hears ep) ∧ RefusedInARow 5 (before ++ [s]))

/-- This server was found healthy, before anything else was concluded. -/
def Heard (joinProbeSec : ℕ) (o : Observed) (ep : Text) : Prop :=
  ∃ before s after, o.sweeps = before ++ s :: after ∧ Unheard before ∧
    s.now < o.start + joinProbeSec ∧ s.Hears ep

/-- The members do not let this node join yet. -/
def Unready (self : Server) (ms : List Member) : Prop :=
  listed self ms = false ∨ namelessOther self ms = true ∧ selfVoting self ms = false

/-- What a member list that ends the wait says. -/
def Render.OfMembers (self : Server) (ms : List Member) : Probing → Prop
  | .learner ic => listed self ms = true ∧ namelessOther self ms = false ∧
    selfVoting self ms = false ∧ ic = initialCluster self ms
  | .voting ic => listed self ms = true ∧ namelessOther self ms = false ∧
    selfVoting self ms = true ∧ ic = initialCluster self ms
  | .founderRace => listed self ms = true ∧ namelessOther self ms = true ∧
    selfVoting self ms = true
  | _ => False

section wait

variable {self : Server} {ms : List Member}

/-- One list in a round: it ends the wait, or does not let this node join. -/
theorem joinRound_cons (hms : ∀ m ∈ ms, m.WellFormed) (rest : List (Option (List Member))) :
    (∃ p, joinRound self (some ms :: rest) = some p ∧ Render.OfMembers self ms p) ∨
      Unready self ms ∧ joinRound self (some ms :: rest) = joinRound self rest := by
  have hrender : renderJoin self.name self.peer ((some ms).map memberListText) = _ :=
    @renderJoin_members self ms hms
  rw [joinRound, hrender]
  cases hl : listed self ms with
  | false => exact Or.inr ⟨Or.inl hl, by simp⟩
  | true =>
    cases hn : namelessOther self ms <;> cases hv : selfVoting self ms
    · exact Or.inl ⟨.learner _, by simp, hl, hn, hv, rfl⟩
    · exact Or.inl ⟨.voting _, by simp, hl, hn, hv, rfl⟩
    · exact Or.inr ⟨Or.inr ⟨hn, hv⟩, by simp⟩
    · exact Or.inl ⟨.founderRace, by simp, hl, hn, hv⟩

theorem joinRound_cases {lists : List (Option (List Member))}
    (hlists : ∀ ms, some ms ∈ lists → ∀ m ∈ ms, m.WellFormed) :
    (∃ p, joinRound self lists = some p ∧ ∃ ms, some ms ∈ lists ∧ Render.OfMembers self ms p) ∨
      joinRound self lists = none ∧ ∀ ms, some ms ∈ lists → Unready self ms := by
  induction lists with
  | nil => exact Or.inr ⟨rfl, by simp⟩
  | cons list rest ih =>
    have hrest := ih fun ms hms => hlists ms (List.mem_cons_of_mem _ hms)
    cases list with
    | none =>
      -- `member list` fails
      have hskip : joinRound self (none :: rest) = joinRound self rest := rfl
      rw [hskip]
      refine hrest.imp ?_ ?_
      · rintro ⟨p, hp, ms, hms, hof⟩
        exact ⟨p, hp, ms, List.mem_cons_of_mem _ hms, hof⟩
      · rintro ⟨hp, hun⟩
        exact ⟨hp, fun ms hms => hun ms (by simpa using hms)⟩
    | some ms =>
      obtain ⟨p, hp, hof⟩ | ⟨hun, hskip⟩ :=
        @joinRound_cons self ms (hlists ms List.mem_cons_self) rest
      · exact Or.inl ⟨p, hp, ms, List.mem_cons_self, hof⟩
      · rw [hskip]
        refine hrest.imp ?_ ?_
        · rintro ⟨p, hp, ms', hms', hof⟩
          exact ⟨p, hp, ms', List.mem_cons_of_mem _ hms', hof⟩
        · rintro ⟨hp, hall⟩
          refine ⟨hp, fun ms' hms' => ?_⟩
          rcases List.mem_cons.mp hms' with heq | hms'
          · obtain rfl := Option.some.inj heq
            exact hun
          · exact hall ms' hms'

/-- The wait ends with a list that lets this node join, or at its deadline after lists none of
    which did. -/
theorem joinLoop_cases {deadline : ℕ} {ep : Text} {rounds : List JoinRound}
    (hrounds : ∀ r ∈ rounds, ∀ ms, some ms ∈ r.lists → ∀ m ∈ ms, m.WellFormed) {p : Probing}
    (h : joinLoop self deadline ep rounds = some p) :
    (∃ r ∈ rounds, ∃ ms, some ms ∈ r.lists ∧ Render.OfMembers self ms p) ∨
      p = .neverListed ep ∧ ∃ before r after, rounds = before ++ r :: after ∧ deadline ≤ r.now ∧
        ∀ q ∈ before, ∀ ms, some ms ∈ q.lists → Unready self ms := by
  induction rounds with
  | nil => exact absurd h (by simp [joinLoop])
  | cons r rest ih =>
    obtain ⟨hr, hrest⟩ := List.forall_mem_cons.mp hrounds
    rw [joinLoop] at h
    by_cases hnow : r.now < deadline
    · rw [if_pos hnow] at h
      obtain ⟨q, hq, ms, hms, hof⟩ | ⟨hq, hun⟩ := @joinRound_cases self _ hr
      · simp only [hq, Option.some.injEq] at h
        subst h
        exact Or.inl ⟨r, List.mem_cons_self, ms, hms, hof⟩
      · simp only [hq] at h
        refine (ih hrest h).imp ?_ ?_
        · rintro ⟨r', hr', hof⟩
          exact ⟨r', List.mem_cons_of_mem _ hr', hof⟩
        · rintro ⟨hp, before, r', after, hsplit, hlate, hall⟩
          exact ⟨hp, r :: before, r', after, by rw [hsplit, List.cons_append], hlate,
            List.forall_mem_cons.mpr ⟨hun, hall⟩⟩
    · rw [if_neg hnow] at h
      obtain rfl := Option.some.inj h
      exact Or.inr ⟨rfl, [], r, rest, rfl, not_lt.mp hnow, by simp⟩

end wait

theorem RefusedInARow.mono {n m : ℕ} {sweeps : List Sweep} (h : RefusedInARow n sweeps)
    (hle : m ≤ n) : RefusedInARow m sweeps := by
  obtain ⟨before, row, rfl, hlen, hrow⟩ := h
  refine ⟨before ++ row.take (n - m), row.drop (n - m), by simp, ?_, fun s hs => ?_⟩
  · rw [List.length_drop]
    omega
  · exact hrow s (List.mem_of_mem_drop hs)

/-! ## The decision -/

/-- The exit status and the environment file that follow from what probing comes to. -/
def Probing.decides (declared : Text) : Probing → ℕ × Option ClusterEnv
  | .learner ic => (0, some ⟨ic, "existing".toList⟩)
  | .voting ic => (0, some ⟨ic, "existing".toList⟩)
  | .neverListed _ => (1, none)
  | _ => (0, some ⟨declared, "new".toList⟩)

theorem etcdJoinProbe_decides (declared : Text) {d : DataDir} (hd : d.member = false) (p : Probing) :
    (etcdJoinProbe declared d ⟨none, p⟩).1.code = (p.decides declared).1 ∧
      (etcdJoinProbe declared d ⟨none, p⟩).2 = (p.decides declared).2 := by
  unfold etcdJoinProbe
  rw [hd]
  cases p <;> exact ⟨rfl, rfl⟩

/-- What the script decides once a server has been found healthy. -/
def Joins (self : Server) (declared : Text) (o : Observed) (out : Exit × Option ClusterEnv) : Prop :=
  (∃ ms, o.Lists ms ∧ listed self ms = true ∧ namelessOther self ms = false ∧ out.1.code = 0 ∧
      out.2 = some ⟨initialCluster self ms, "existing".toList⟩) ∨
    (∃ ms, o.Lists ms ∧ listed self ms = true ∧ namelessOther self ms = true ∧
      selfVoting self ms = true ∧ out.1.code = 0 ∧ out.2 = some ⟨declared, "new".toList⟩) ∨
    (out.1.code = 1 ∧ out.2 = none ∧ ∃ before r after, o.rounds = before ++ r :: after ∧
      o.joinStart + 300 ≤ r.now ∧ ∀ q ∈ before, ∀ ms, some ms ∈ q.lists → Unready self ms)

/-- Bootstrap or join. On an empty data directory, with its credentials, a server decides to
    bootstrap the declared cluster when it has heard of no healthy server, and then only because
    the window is over or all servers have refused in five sweeps in a row. Once it has heard of a
    healthy one, it joins the members that a server lists, with itself under its declared name; or
    it is a voting member already, beside founders that have not started, and uses the
    declaration; or it fails, after five minutes of lists that did not let it join. -/
theorem joinProbe_safe (self : Server) (joinProbeSec : ℕ) (o : Observed) (hlists : o.WellFormed)
    (p : Probing) (hprobe : probing self joinProbeSec o = some p) (declared : Text) (d : DataDir)
    (hd : d.member = false) :
    (Fresh joinProbeSec o ∧ (etcdJoinProbe declared d ⟨none, p⟩).1.code = 0 ∧
      (etcdJoinProbe declared d ⟨none, p⟩).2 = some ⟨declared, "new".toList⟩) ∨
    ∃ ep, Heard joinProbeSec o ep ∧ Joins self declared o (etcdJoinProbe declared d ⟨none, p⟩) := by
  obtain ⟨hcode, henv⟩ := etcdJoinProbe_decides declared hd p
  rw [probing] at hprobe
  have hempty : Unheard [] := by simp [Unheard]
  cases hloop : probeLoop (o.start + joinProbeSec) 0 o.sweeps with
  | none => simp [hloop] at hprobe
  | some r =>
    obtain ⟨before, s, after, hsplit, hun, hseen⟩ :=
      probeLoop_cases hempty (refusedInARow_zero []) hloop
    rw [List.nil_append] at hun hseen
    cases r with
    | allRefused n =>
      simp only [hloop, Option.some.injEq] at hprobe
      subst hprobe
      obtain ⟨hfive, -, hnone, hrow⟩ := hseen
      exact Or.inl ⟨⟨before, s, after, hsplit, hun, Or.inr ⟨hnone, hrow.mono hfive⟩⟩, hcode, henv⟩
    | noAnswer =>
      simp only [hloop, Option.some.injEq] at hprobe
      subst hprobe
      exact Or.inl ⟨⟨before, s, after, hsplit, hun, Or.inl hseen⟩, hcode, henv⟩
    | healthy ep =>
      simp only [hloop] at hprobe
      refine Or.inr ⟨ep, ⟨before, s, after, hsplit, hun, hseen⟩, ?_⟩
      obtain ⟨r, hr, ms, hms, hof⟩ | ⟨rfl, hwait⟩ := joinLoop_cases hlists hprobe
      · have hlisted : o.Lists ms := ⟨r, hr, hms⟩
        cases p with
        | learner ic =>
          obtain ⟨hl, hn, -, rfl⟩ := hof
          exact Or.inl ⟨ms, hlisted, hl, hn, hcode, henv⟩
        | voting ic =>
          obtain ⟨hl, hn, -, rfl⟩ := hof
          exact Or.inl ⟨ms, hlisted, hl, hn, hcode, henv⟩
        | founderRace =>
          obtain ⟨hl, hn, hv⟩ := hof
          exact Or.inr (Or.inl ⟨ms, hlisted, hl, hn, hv, hcode, henv⟩)
        | allRefused n => exact hof.elim
        | noAnswer => exact hof.elim
        | neverListed ep => exact hof.elim
      · exact Or.inr (Or.inr ⟨hcode, henv, hwait⟩)

/-- The third server. -/
def joiner : Server := ⟨"c".toList, "https://10.0.0.3:2380".toList⟩

/-- Two members that run, and the third as a learner that has not started. -/
def grownMembers : List Member :=
  [⟨"1".toList, "a".toList, "https://10.0.0.1:2380".toList, "https://10.0.0.1:2379".toList, false⟩,
    ⟨"2".toList, "b".toList, "https://10.0.0.2:2380".toList, "https://10.0.0.2:2379".toList, false⟩,
    ⟨"3".toList, [], joiner.peer, [], true⟩]

/-- The first server refuses once, then is healthy; the second one is silent. -/
def joining : Observed where
  start := 100
  sweeps := [⟨100, [("https://10.0.0.1:2379".toList, ⟨7, false⟩),
      ("https://10.0.0.2:2379".toList, ⟨28, false⟩)]⟩,
    ⟨102, [("https://10.0.0.1:2379".toList, ⟨0, true⟩)]⟩]
  joinStart := 102
  rounds := [⟨102, [some (grownMembers.take 2), none]⟩, ⟨104, [some grownMembers]⟩]

theorem joining_wellFormed : joining.WellFormed := by
  have hgrown : ∀ m ∈ grownMembers, m.WellFormed := by
    intro m hm
    have hcolumns : m ∈ grownMembers → (Columnar m.id ∧ Columnar m.name ∧ Columnar m.peer ∧
        Columnar m.client) ∧ m.peer ≠ [] ∧ '=' ∉ m.peer := by
      revert m
      decide +kernel
    obtain ⟨⟨h1, h2, h3, h4⟩, h5, h6⟩ := hcolumns hm
    exact ⟨h1, h2, h3, h4, h5, h6⟩
  intro r hr ms hms
  rcases List.mem_pair.mp hr with rfl | rfl
  · obtain rfl : ms = grownMembers.take 2 := by simpa using hms
    exact fun m hm => hgrown m (List.mem_of_mem_take hm)
  · obtain rfl : ms = grownMembers := by simpa using hms
    exact hgrown

/-- It joins the two. -/
theorem joinProbe_safe_joining :
    Joins joiner "a=https://10.0.0.1:2380".toList joining
      (etcdJoinProbe "a=https://10.0.0.1:2380".toList ⟨none, false⟩
        ⟨none, .learner ("a=https://10.0.0.1:2380,b=https://10.0.0.2:2380,".toList ++
          "c=https://10.0.0.3:2380".toList)⟩) := by
  have hprobe : probing joiner 15 joining = some (.learner
      ("a=https://10.0.0.1:2380,b=https://10.0.0.2:2380,".toList ++
        "c=https://10.0.0.3:2380".toList)) := by decide +kernel
  have hsafe := joinProbe_safe joiner 15 joining joining_wellFormed _ hprobe
    "a=https://10.0.0.1:2380".toList ⟨none, false⟩ rfl
  obtain ⟨-, -, hnew⟩ | ⟨ep, -, hjoins⟩ := hsafe
  · simp [etcdJoinProbe] at hnew
  · exact hjoins

end Kubenyx.Quorum
