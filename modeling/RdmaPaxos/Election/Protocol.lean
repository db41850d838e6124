/-
  RdmaPaxos.Election.Protocol
  ───────────────────────────
  **LEADER ELECTION** (`rdma/dare_server.c`, `rdma/dare_ibv_rc.c`).

  Each server runs an event loop: `hb_send_cb` or `hb_receive_cb` on one timer and,
  from its first election on, `poll_cb` whenever it is idle.  A callback runs to its
  end before the next one starts; the servers run in parallel and meet only in the
  RDMA writes into each other's `hb`, `vote_req` and `vote_ack` slots, each of which
  completes before its writer continues.  One step is one iteration of a loop of
  one callback, or the straight-line code between two loops.

  An iteration reads a `vote_req` slot several times, the model reads it once.  A server
  writes only ever larger SIDs into its slots, with the same index and term, so a request
  that arrives between two reads is taken as if it had been there at the first one; and
  if it arrives between the last read and `request->sid = 0`, it is lost: no vote comes
  of it.  So arrivals inside an iteration add no vote and no leader.

  The index of a server is its own number, as the macros use it; all endpoints are
  connected, so no post fails.
-/
import RdmaPaxos.Election.Sid
import RdmaPaxos.Log.DareLog
import Mathlib.Logic.Function.Basic

namespace RdmaPaxos.Election

/-! ## §1. One server. -/

/-- `INIT_LEADER`. -/
def initLeader : Nat := 0
/-- `FIXED_LEADER`. -/
def fixedLeader : Nat := 1

/-- `vote_req_t`. -/
structure VoteReq where
  sid : Nat
  index : Nat
  term : Nat
  deriving Repr, DecidableEq

/-- The callback of `hb_event`. -/
inductive TimerCb where
  | send
  | receive
  deriving Repr, DecidableEq

/-- Where a server is in its event loop. -/
inductive Pc where
  /-- between two callbacks -/
  | idle
  /-- in the loop of `rc_send_hb`, at server `j` -/
  | beat (j : Nat)
  /-- in the loop of `rc_send_vote_request`, at server `j` -/
  | request (j : Nat)
  /-- in the loop of `poll_vote_count` -/
  | count (j votes : Nat)
  /-- in the first loop of `poll_vote_requests`, with `best_sid` -/
  | scan (j best : Nat)
  /-- in the second loop, with `highest_term` and `best_request` -/
  | choose (j highest : Nat) (best : VoteReq)
  /-- about to post the vote ack -/
  | ack
  deriving Repr, DecidableEq

/-- The state of a server: `ctrl_data`, `log->end`, the timer (`none` when it is
stopped), whether `poll_event` has been started. -/
structure Server where
  sid : Nat
  voteReq : Nat → VoteReq
  hb : Nat → Nat
  voteAck : Nat → Nat
  logEnd : Nat
  timer : Option TimerCb
  polling : Bool
  pc : Pc

/-- An RDMA write into the writer's slot of a peer. -/
inductive Write where
  | hb (sid : Nat)
  | voteReq (r : VoteReq)
  | voteAck (logEnd : Nat)

/-- A write of server `i` arrives. -/
def Server.receive (s : Server) (i : Nat) : Write → Server
  | .hb sid => { s with hb := Function.update s.hb i sid }
  | .voteReq r => { s with voteReq := Function.update s.voteReq i r }
  | .voteAck logEnd => { s with voteAck := Function.update s.voteAck i logEnd }

/-- What a step does outside its server: the peer it writes to, and the term and
candidate it votes for (which is recorded, not used). -/
structure Effect where
  write : Option (Nat × Write)
  vote : Option (Nat × Nat)

/-- Nothing is written and no vote is given. -/
def Effect.none : Effect := ⟨.none, .none⟩

/-! ## §2. The functions of `dare_server.c`. -/

/-- `server_update_sid`. -/
def serverUpdateSid (s : Server) (newSid oldSid : Nat) : Server :=
  if s.sid = oldSid then { s with sid := newSid } else s

/-- `IS_CANDIDATE`. -/
def isCandidate (i : Nat) (s : Server) : Bool := sidGetIdx s.sid == i && !sidGetL s.sid

/-- `(idx == FIXED_LEADER) ? 1 : 0`. -/
def logIndex (i : Nat) : Nat := if i = fixedLeader then 1 else 0

/-- The SID [t+1|0|own_idx] of a new election. -/
def candidateSid (sid i : Nat) : Nat :=
  sidSetIdx (sidUnsetL (sidSetTerm 0 (sidGetTerm sid + 1))) i

/-- `start_election`, up to the loop of `rc_send_vote_request`; the request is
prepared in the server's own slot. -/
def startElection (n i : Nat) (s : Server) : Server :=
  let s := serverUpdateSid s (candidateSid s.sid i) s.sid
  { s with
    voteAck := fun j => if j < n then logSize else s.voteAck j
    timer := some .receive
    voteReq := Function.update s.voteReq i ⟨s.sid, logIndex i, 1⟩
    pc := .request 0 }

/-- `hb_receive_cb`: read and reset the heartbeats. -/
def hbReceiveCb (n i : Nat) (s : Server) : Server × Effect :=
  if i = initLeader then (s, .none)
  else
    let heard := (List.range n).any fun j => j != i && s.hb j != 0
    let s := { s with hb := fun j => if j < n ∧ j ≠ i then 0 else s.hb j }
    if heard then (s, .none)
    else
      let s := startElection n i { s with polling := true }
      (s, ⟨none, some (sidGetTerm s.sid, i)⟩)

/-- The start of `poll_vote_requests`: an active leader is known, or the first
loop begins with the own SID, flag set. -/
def pollVoteRequests (s : Server) : Server :=
  { s with pc := if sidGetL s.sid then .idle else .scan 0 (sidSetL s.sid) }

/-- `polling`. -/
def polling (i : Nat) (s : Server) : Server :=
  if isCandidate i s then { s with pc := .count 0 1 } else pollVoteRequests s

/-- A vote request is dropped: `request->sid = 0`. -/
def Server.drop (s : Server) (j : Nat) : Server :=
  { s with voteReq := Function.update s.voteReq j { s.voteReq j with sid := 0 } }

/-- One iteration of the first loop of `poll_vote_requests`. -/
def scanSlot (i j best : Nat) (s : Server) : Server :=
  if j = i then { s with pc := .scan (j + 1) best }
  else if (s.voteReq j).sid ≤ best then { s.drop j with pc := .scan (j + 1) best }
  else { s with pc := .scan (j + 1) (s.voteReq j).sid }

/-- One iteration of the second loop, which does not skip the own slot. -/
def chooseSlot (j highest : Nat) (best : VoteReq) (s : Server) : Server :=
  let r := s.voteReq j
  if r.sid < best.sid then { s.drop j with pc := .choose (j + 1) highest best }
  else
    let highest := if highest < sidGetTerm r.sid then sidGetTerm r.sid else highest
    if best.term > r.term ∨ best.term = r.term ∧ best.index > r.index then
      { s with pc := .choose (j + 1) highest best }
    else { s.drop j with pc := .choose (j + 1) highest r }

/-- The end of `poll_vote_requests`: raise the own term, or support the best
candidate and go on to the ack. -/
def decideVote (i highest : Nat) (best : VoteReq) (s : Server) : Server × Effect :=
  if best.sid = sidSetL s.sid then
    let newSid := sidSetIdx (sidSetTerm s.sid highest) i
    ({ serverUpdateSid s newSid s.sid with pc := .idle }, .none)
  else
    ({ serverUpdateSid { s with timer := none } best.sid s.sid with pc := .ack },
      ⟨none, some (sidGetTerm best.sid, sidGetIdx best.sid)⟩)

/-- The next step of the callback server `i` of `n` is in. -/
def runCallback (n i : Nat) (s : Server) : Option (Server × Effect) :=
  match s.pc with
  | .idle => none
  | .beat j =>
      if j < n then
        some ({ s with pc := .beat (j + 1) },
          ⟨if j = i then none else some (j, .hb s.sid), none⟩)
      else some ({ s with pc := .idle }, .none)
  | .request j =>
      if j < n then
        some ({ s with pc := .request (j + 1) },
          ⟨if j = i ∨ j = initLeader then none else some (j, .voteReq (s.voteReq i)), none⟩)
      else some ({ s with pc := .idle }, .none)
  | .count j votes =>
      if j < n then
        some ({ s with
          pc := .count (j + 1) (if j = i ∨ s.voteAck j = logSize then votes else votes + 1) }, .none)
      else if votes < n / 2 + 1 then some (pollVoteRequests s, .none)
      else
        -- won: become leader and send heartbeats
        let s := serverUpdateSid s (sidSetL s.sid) s.sid
        some (pollVoteRequests { s with timer := some .send }, .none)
  | .scan j best =>
      if j < n then some (scanSlot i j best s, .none)
      else if best = sidSetL s.sid then some ({ s with pc := .idle }, .none)
      else
        some ({ s with pc := .choose 0 (sidGetTerm best) ⟨sidSetL s.sid, logIndex i, 1⟩ }, .none)
  | .choose j highest best =>
      if j < n then some (chooseSlot j highest best s, .none)
      else some (decideVote i highest best s)
  | .ack =>
      some ({ s with timer := some .receive, pc := .idle },
        ⟨some (sidGetIdx s.sid, .voteAck s.logEnd), none⟩)

/-- What can happen at a server. -/
inductive Event where
  /-- the timer fires, with `hb_send_cb` or `hb_receive_cb` -/
  | hbSend
  | hbReceive
  /-- `poll_cb` -/
  | poll
  /-- the running callback goes on -/
  | run
  /-- the consensus code moves `log->end` -/
  | logMoves (logEnd : Nat)

/-- What server `i` of `n` does on an event. -/
def act (n i : Nat) (s : Server) : Event → Option (Server × Effect)
  | .hbSend =>
      if s.pc = .idle ∧ s.timer = some .send then some ({ s with pc := .beat 0 }, .none) else none
  | .hbReceive =>
      if s.pc = .idle ∧ s.timer = some .receive then some (hbReceiveCb n i s) else none
  | .poll => if s.pc = .idle ∧ s.polling = true then some (polling i s, .none) else none
  | .run => runCallback n i s
  | .logMoves logEnd => some ({ s with logEnd := logEnd }, .none)

/-! ## §3. The group. -/

/-- The servers, and all votes ever cast: voter, term, candidate. -/
structure Group where
  size : Nat
  servers : Nat → Server
  votes : List (Nat × Nat × Nat)

/-- Server `i` becomes `s`. -/
def Group.setServer (g : Group) (i : Nat) (s : Server) : Group :=
  { g with servers := Function.update g.servers i s }

/-- A write of server `i` arrives. -/
def Group.deliver (g : Group) (i : Nat) : Option (Nat × Write) → Group
  | none => g
  | some (j, w) => g.setServer j ((g.servers j).receive i w)

/-- The vote of server `i` is recorded. -/
def Group.record (g : Group) (i : Nat) : Option (Nat × Nat) → Group
  | none => g
  | some (term, candidate) => { g with votes := g.votes ++ [(i, term, candidate)] }

/-- One event of one server; its write arrives with it. -/
def step (g : Group) (a : Nat × Event) : Option Group :=
  if a.1 < g.size then
    (act g.size a.1 (g.servers a.1) a.2).map fun r =>
      ((g.setServer a.1 r.1).deliver a.1 r.2.write).record a.1 r.2.vote
  else none

/-- Server `i` after `hb_begin`: SID [1|1|INIT_LEADER], an empty log. -/
def Server.begin (i : Nat) : Server where
  sid := sidSetIdx (sidSetL (sidSetTerm 0 1)) initLeader
  voteReq := fun _ => ⟨0, 0, 0⟩
  hb := fun _ => 0
  voteAck := fun _ => 0
  logEnd := logSize
  timer := some (if i = initLeader then .send else .receive)
  polling := false
  pc := .idle

/-- Every server starts out with server 0 as the leader of term 1. -/
def Group.initial (n : Nat) : Group where
  size := n
  servers := Server.begin
  votes := (List.range n).map fun i => (i, 1, initLeader)

end RdmaPaxos.Election
