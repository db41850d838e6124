/-
  RdmaPaxos.Election.Steps
  ────────────────────────
  **WHAT A SERVER CAN DO IN ONE STEP.**

  `Act` lists the outcomes of `act`, one named case each, with what is known when it
  is taken; `act_cases` is the only place where the functions of the protocol are
  unfolded.  `forall_step` lifts a property of single servers to the group.
-/
import RdmaPaxos.Election.Protocol

namespace RdmaPaxos.Election

/-- `server_update_sid` with the SID that is there. -/
theorem serverUpdateSid_self (s : Server) (newSid : Nat) :
    serverUpdateSid s newSid s.sid = { s with sid := newSid } := if_pos rfl

/-- The timeout of server `i` finds no heartbeat (`hb_receive_cb`, lines 183–227). -/
def startsElection (n i : Nat) (s : Server) : Bool :=
  i != initLeader && !(List.range n).any fun j => j != i && s.hb j != 0

/-- Where a callback returns, or goes on to `poll_vote_requests`, and assigns no SID. -/
inductive Leaves (n : Nat) (s : Server) : Event → Prop where
  | poll : Leaves n s .poll
  | beat {j : Nat} (hpc : s.pc = .beat j) : Leaves n s .run
  | request {j : Nat} (hpc : s.pc = .request j) : Leaves n s .run
  | count {j votes : Nat} (hpc : s.pc = .count j votes) (hvotes : votes < n / 2 + 1) : Leaves n s .run
  | scan {j best : Nat} (hpc : s.pc = .scan j best) : Leaves n s .run

/-- The steps of server `i` of `n`. -/
inductive Act (n i : Nat) (s : Server) : Event → Server → Effect → Prop where
  /-- a heartbeat round begins -/
  | hbSend (hpc : s.pc = .idle) (htimer : s.timer = some .send) :
      Act n i s .hbSend { s with pc := .beat 0 } .none
  | ignored (hi : i = initLeader) : Act n i s .hbReceive s .none
  | heard (hb : Nat → Nat) (hno : startsElection n i s = false) : Act n i s .hbReceive { s with hb := hb } .none
  /-- the timeout: a new election -/
  | elect (hb : Nat → Nat) (htimer : s.timer = some .receive) (hi : i ≠ initLeader)
      (hstarts : startsElection n i s = true) :
      Act n i s .hbReceive
        { s with
          sid := candidateSid s.sid i
          voteReq := Function.update s.voteReq i ⟨candidateSid s.sid i, logIndex i, 1⟩
          hb := hb
          voteAck := fun j => if j < n then logSize else s.voteAck j
          timer := some .receive
          polling := true
          pc := .request 0 }
        ⟨none, some (sidGetTerm (candidateSid s.sid i), i)⟩
  | startCount (hpoll : s.polling = true) (hcand : isCandidate i s = true) :
      Act n i s .poll { s with pc := .count 0 1 } .none
  /-- `poll_vote_requests` goes on to its first loop -/
  | startScan {ev : Event} (hL : sidGetL s.sid = false)
      (hpoll : s.polling = true ∨ ∃ j votes, s.pc = .count j votes) (hleaves : Leaves n s ev) :
      Act n i s ev { s with pc := .scan 0 (sidSetL s.sid) } .none
  /-- a callback returns -/
  | finish {ev : Event} (hleaves : Leaves n s ev) : Act n i s ev { s with pc := .idle } .none
  | beat {j : Nat} {write : Option (Nat × Write)} (hpc : s.pc = .beat j)
      (hwrite : ∀ k w, write = some (k, w) → k < n ∧ k ≠ i ∧ w = .hb s.sid) :
      Act n i s .run { s with pc := .beat (j + 1) } ⟨write, none⟩
  | request {j : Nat} {write : Option (Nat × Write)} (hpc : s.pc = .request j)
      (hwrite : ∀ k w, write = some (k, w) → k < n ∧ k ≠ i ∧ w = .voteReq (s.voteReq i)) :
      Act n i s .run { s with pc := .request (j + 1) } ⟨write, none⟩
  | count {j votes : Nat} (hpc : s.pc = .count j votes) (hj : j < n) :
      Act n i s .run { s with
        pc := .count (j + 1) (if j = i ∨ s.voteAck j = logSize then votes else votes + 1) } .none
  | won {j votes : Nat} (hpc : s.pc = .count j votes) (hj : ¬ j < n) (hvotes : n / 2 + 1 ≤ votes) :
      Act n i s .run { s with sid := sidSetL s.sid, timer := some .send, pc := .idle } .none
  | scanOwn {j best : Nat} (hpc : s.pc = .scan j best) :
      Act n i s .run { s with pc := .scan (j + 1) best } .none
  | scanDrop {j best : Nat} (hpc : s.pc = .scan j best) :
      Act n i s .run { s.drop j with pc := .scan (j + 1) best } .none
  | scanBetter {j best : Nat} (hpc : s.pc = .scan j best) (hlt : best < (s.voteReq j).sid) :
      Act n i s .run { s with pc := .scan (j + 1) (s.voteReq j).sid } .none
  | scanned {j best : Nat} (hpc : s.pc = .scan j best) (hbest : best ≠ sidSetL s.sid) :
      Act n i s .run
        { s with pc := .choose 0 (sidGetTerm best) ⟨sidSetL s.sid, logIndex i, 1⟩ } .none
  | chooseDrop {j highest : Nat} {best : VoteReq} (hpc : s.pc = .choose j highest best) (hj : j < n) :
      Act n i s .run { s.drop j with pc := .choose (j + 1) highest best } .none
  /-- the own log is better: only the term counts -/
  | chooseKeep {j highest highest' : Nat} {best : VoteReq} (hpc : s.pc = .choose j highest best)
      (hmax : highest' = highest ∨ highest' = sidGetTerm (s.voteReq j).sid)
      (hle : highest ≤ highest') (hj : j < n) :
      Act n i s .run { s with pc := .choose (j + 1) highest' best } .none
  | chooseTake {j highest highest' : Nat} {best : VoteReq} (hpc : s.pc = .choose j highest best)
      (hmax : highest' = highest ∨ highest' = sidGetTerm (s.voteReq j).sid)
      (hle : highest ≤ highest') (hsid : best.sid ≤ (s.voteReq j).sid)
      (hlog : ¬ (best.term > (s.voteReq j).term
        ∨ best.term = (s.voteReq j).term ∧ best.index > (s.voteReq j).index)) (hj : j < n) :
      Act n i s .run { s.drop j with pc := .choose (j + 1) highest' (s.voteReq j) } .none
  /-- nobody is better, but the own term is too low -/
  | raise {j highest : Nat} {best : VoteReq} (hpc : s.pc = .choose j highest best)
      (hj : ¬ j < n) (hbest : best.sid = sidSetL s.sid) :
      Act n i s .run { s with sid := sidSetIdx (sidSetTerm s.sid highest) i, pc := .idle } .none
  | vote {j highest : Nat} {best : VoteReq} (hpc : s.pc = .choose j highest best)
      (hbest : best.sid ≠ sidSetL s.sid) (hj : ¬ j < n) :
      Act n i s .run { s with sid := best.sid, timer := none, pc := .ack }
        ⟨none, some (sidGetTerm best.sid, sidGetIdx best.sid)⟩
  | ack (hpc : s.pc = .ack) :
      Act n i s .run { s with timer := some .receive, pc := .idle }
        ⟨some (sidGetIdx s.sid, .voteAck s.logEnd), none⟩
  | logMoves (logEnd : Nat) : Act n i s (.logMoves logEnd) { s with logEnd := logEnd } .none

section Cases
variable {n i : Nat} {s s' : Server} {e : Effect}

/-- The first loop of `poll_vote_requests` is entered, or it returns at once. -/
theorem act_pollVoteRequests {ev : Event}
    (hpoll : s.polling = true ∨ ∃ j votes, s.pc = .count j votes) (hleaves : Leaves n s ev) :
    Act n i s ev (pollVoteRequests s) .none := by
  unfold pollVoteRequests
  cases hL : sidGetL s.sid with
  | true => exact .finish hleaves
  | false => exact .startScan hL hpoll hleaves

/-- The leader bit that is set is there. -/
theorem sidGetL_sidSetL (sid : Nat) : sidGetL (sidSetL sid) = true := by
  rw [sidGetL_iff, sidSetL_eq]
  split <;> omega

/-- The heartbeat timer. -/
theorem act_hbReceiveCb (htimer : s.timer = some .receive) (h : hbReceiveCb n i s = (s', e)) :
    Act n i s .hbReceive s' e := by
  unfold hbReceiveCb at h
  split at h
  next hi =>
    cases h
    exact .ignored hi
  next hi =>
    dsimp only at h
    split at h
    next hheard =>
      cases h
      exact .heard _ (by simp [startsElection, hheard])
    next hquiet =>
      -- `start_election` replaces the SID it has just read
      unfold startElection at h
      rw [serverUpdateSid_self] at h
      cases h
      exact .elect _ htimer hi (by simp [startsElection, hi, hquiet])

/-- One slot is compared. -/
theorem act_chooseSlot {j highest : Nat} {best : VoteReq} (hpc : s.pc = .choose j highest best)
    (hj : j < n) :
    Act n i s .run (chooseSlot j highest best s) .none := by
  unfold chooseSlot
  dsimp only
  split
  · exact .chooseDrop hpc hj
  next hsid =>
    have hmax : ∀ x, (if highest < x then x else highest) = highest
        ∨ (if highest < x then x else highest) = x := by
      intro x
      split
      · exact .inr rfl
      · exact .inl rfl
    have hle : ∀ x, highest ≤ if highest < x then x else highest := by
      intro x
      split <;> omega
    split
    · exact .chooseKeep hpc (hmax _) (hle _) hj
    next hlog => exact .chooseTake hpc (hmax _) (hle _) (by omega) hlog hj

/-- The decision after the last slot. -/
theorem act_decideVote {j highest : Nat} {best : VoteReq} (hpc : s.pc = .choose j highest best)
    (hj : ¬ j < n) (h : decideVote i highest best s = (s', e)) : Act n i s .run s' e := by
  unfold decideVote at h
  split at h
  next hbest =>
    dsimp only at h
    rw [serverUpdateSid_self] at h
    cases h
    exact .raise hpc hj hbest
  next hbest =>
    have hself := serverUpdateSid_self { s with timer := none } best.sid
    dsimp only at hself
    rw [hself] at h
    cases h
    exact .vote hpc hbest hj

/-- One step of a callback. -/
theorem act_runCallback (h : runCallback n i s = some (s', e)) : Act n i s .run s' e := by
  unfold runCallback at h
  split at h
  next => cases h
  next j hpc =>
    split at h
    next hj =>
      cases h
      refine .beat hpc fun k w hw => ?_
      split at hw
      · cases hw
      next hne =>
        cases hw
        exact ⟨hj, hne, rfl⟩
    next =>
      cases h
      exact .finish (.beat hpc)
  next j hpc =>
    split at h
    next hj =>
      cases h
      refine .request hpc fun k w hw => ?_
      split at hw
      · cases hw
      next hne =>
        cases hw
        exact ⟨hj, fun heq => hne (.inl heq), rfl⟩
    next =>
      cases h
      exact .finish (.request hpc)
  next j votes hpc =>
    split at h
    next hj =>
      cases h
      exact .count hpc hj
    next hj =>
      split at h
      next hvotes =>
        cases h
        exact act_pollVoteRequests (.inr ⟨j, votes, hpc⟩) (.count hpc hvotes)
      next hvotes =>
        -- the flag is set, so `poll_vote_requests` returns at once
        rw [serverUpdateSid_self] at h
        unfold pollVoteRequests at h
        dsimp only at h
        rw [sidGetL_sidSetL] at h
        cases h
        exact .won hpc hj (by omega)
  next j best hpc =>
    split at h
    next =>
      cases h
      unfold scanSlot
      split
      · exact .scanOwn hpc
      · split
        · exact .scanDrop hpc
        next hlt => exact .scanBetter hpc (by omega)
    next =>
      split at h
      next =>
        cases h
        exact .finish (.scan hpc)
      next hbest =>
        cases h
        exact .scanned hpc hbest
  next j highest best hpc =>
    split at h
    next hj =>
      cases h
      exact act_chooseSlot hpc hj
    next hj => exact act_decideVote hpc hj (Option.some.inj h)
  next hpc =>
    cases h
    exact .ack hpc

/-- **Every event of a server is one of these.** -/
theorem act_cases {ev : Event} (h : act n i s ev = some (s', e)) : Act n i s ev s' e := by
  cases ev with
  | hbSend =>
      simp only [act] at h
      split at h
      next hg =>
        cases h
        exact .hbSend hg.1 hg.2
      next => cases h
  | hbReceive =>
      simp only [act] at h
      split at h
      next hg => exact act_hbReceiveCb hg.2 (Option.some.inj h)
      next => cases h
  | poll =>
      simp only [act] at h
      split at h
      next hg =>
        cases h
        unfold polling
        split
        next hcand => exact .startCount hg.2 hcand
        next => exact act_pollVoteRequests (.inl hg.2) .poll
      next => cases h
  | run => exact act_runCallback h
  | logMoves logEnd =>
      cases h
      exact .logMoves logEnd

end Cases

/-! ## Lifting to the group. -/

/-- A step of the group is a step of one server. -/
theorem step_act {g g' : Group} {a : Nat × Event} (h : step g a = some g') :
    ∃ s' e, a.1 < g.size ∧ act g.size a.1 (g.servers a.1) a.2 = some (s', e)
      ∧ g' = ((g.setServer a.1 s').deliver a.1 e.write).record a.1 e.vote := by
  unfold step at h
  split at h
  next hi =>
    obtain ⟨⟨s', e⟩, hact, hg'⟩ := Option.map_eq_some_iff.mp h
    exact ⟨s', e, hi, hact, hg'.symm⟩
  next => cases h

/-- **Every step of the group is one of these, delivered.** -/
theorem step_cases {g g' : Group} {a : Nat × Event} (h : step g a = some g') :
    ∃ s' e, a.1 < g.size ∧ Act g.size a.1 (g.servers a.1) a.2 s' e
      ∧ g' = ((g.setServer a.1 s').deliver a.1 e.write).record a.1 e.vote := by
  obtain ⟨s', e, hi, hact, hg'⟩ := step_act h
  exact ⟨s', e, hi, act_cases hact, hg'⟩

/-- The votes after a step of server `i`. -/
def castVotes (votes : List (Nat × Nat × Nat)) (i : Nat) : Option (Nat × Nat) → List (Nat × Nat × Nat)
  | none => votes
  | some (term, candidate) => votes ++ [(i, term, candidate)]

/-- Votes are never taken back. -/
theorem mem_castVotes {votes : List (Nat × Nat × Nat)} {i : Nat} {vote : Option (Nat × Nat)}
    {v : Nat × Nat × Nat} (h : v ∈ votes) : v ∈ castVotes votes i vote := by
  cases vote with
  | none => exact h
  | some _ => exact List.mem_append_left _ h

section Lift
variable {g : Group} {i : Nat} {s' : Server} {e : Effect}

theorem after_size : (((g.setServer i s').deliver i e.write).record i e.vote).size = g.size := by
  obtain ⟨write, vote⟩ := e
  cases write <;> cases vote <;> rfl

theorem after_votes :
    (((g.setServer i s').deliver i e.write).record i e.vote).votes = castVotes g.votes i e.vote := by
  obtain ⟨write, vote⟩ := e
  cases write <;> cases vote <;> rfl

theorem after_servers :
    (((g.setServer i s').deliver i e.write).record i e.vote).servers
      = ((g.setServer i s').deliver i e.write).servers := by
  obtain ⟨write, vote⟩ := e
  cases vote <;> rfl

/-- A part of the servers that no write changes, after a step. -/
theorem after_field {α : Type*} (f : Server → α) (hf : ∀ s j w, f (Server.receive s j w) = f s)
    (k : Nat) : f ((((g.setServer i s').deliver i e.write).record i e.vote).servers k)
      = if k = i then f s' else f (g.servers k) := by
  have hset : ∀ k, f ((g.setServer i s').servers k) = if k = i then f s' else f (g.servers k) := by
    intro k
    show f (Function.update g.servers i s' k) = _
    by_cases hki : k = i
    · rw [hki, Function.update_self, if_pos rfl]
    · rw [Function.update_of_ne hki, if_neg hki]
  rw [after_servers]
  cases e.write with
  | none => exact hset k
  | some target =>
      obtain ⟨j, w⟩ := target
      rw [← hset]
      show f (Function.update (g.setServer i s').servers j _ k) = _
      by_cases hkj : k = j
      · rw [hkj, Function.update_self, hf]
      · rw [Function.update_of_ne hkj]

/-- The SIDs after a step. -/
theorem after_sid (k : Nat) :
    ((((g.setServer i s').deliver i e.write).record i e.vote).servers k).sid
      = if k = i then s'.sid else (g.servers k).sid :=
  after_field Server.sid (fun _ _ w => by cases w <;> rfl) k

/-- **A property of every server is kept** if votes do not disturb it, the server
that moves keeps it, and the server that is written to keeps it. -/
theorem forall_after {P : List (Nat × Nat × Nat) → Nat → Server → Prop}
    (hall : ∀ k, k < g.size → P g.votes k (g.servers k))
    (hmono : ∀ k s, k ≠ i → P g.votes k s → P (castVotes g.votes i e.vote) k s)
    (hlocal : P (castVotes g.votes i e.vote) i s')
    (hwrite : ∀ j w, e.write = some (j, w) → j ≠ i ∧ (P (castVotes g.votes i e.vote) j (g.servers j) →
      P (castVotes g.votes i e.vote) j ((g.servers j).receive i w))) :
    ∀ k, k < g.size → P (castVotes g.votes i e.vote) k
      ((((g.setServer i s').deliver i e.write).record i e.vote).servers k) := by
  -- the server that acts, before its write has arrived
  have hset : ∀ k, k < g.size → P (castVotes g.votes i e.vote) k ((g.setServer i s').servers k) := by
    intro k hk
    show P _ k (Function.update g.servers i s' k)
    by_cases hki : k = i
    · rw [hki, Function.update_self]
      exact hlocal
    · rw [Function.update_of_ne hki]
      exact hmono k _ hki (hall k hk)
  intro k hk
  rw [after_servers]
  cases hw : e.write with
  | none => exact hset k hk
  | some target =>
      obtain ⟨j, w⟩ := target
      show P _ k (Function.update (g.setServer i s').servers j _ k)
      by_cases hkj : k = j
      · subst hkj
        obtain ⟨hne, hkeep⟩ := hwrite k w hw
        have hsame : (g.setServer i s').servers k = g.servers k := Function.update_of_ne hne ..
        rw [Function.update_self, hsame]
        exact hkeep (hmono k _ hne (hall k hk))
      · rw [Function.update_of_ne hkj]
        exact hset k hk

end Lift

end RdmaPaxos.Election
