/-
  RdmaPaxos.Election.VoteCount
  ────────────────────────────
  **ARE DELIVERED VOTES COUNTED?**

  A vote ack is the voter's `log->end`, and an ack slot that holds `log->len` means
  that no ack has come.  The two meet: `log_new` sets `end` to `len`, and an entry
  that fills the log exactly does so again.  The accept thread of the voter moves
  `end` off `len` with the next `log_get_entry`:

      `end` last moved by    its value      the vote is
      `log_new`              `len`          lost
      `log_get_entry`        below `len`    counted
      an accepted entry      anything       counted, unless it is `len`

  §1  the accept thread, as far as it moves `end`;
  §2  the group with the logs of its servers;
  §3  `poll_vote_count`;
  §4  what the slots hold;
  §5  the theorem.
-/
import RdmaPaxos.Election.VoteSelection

namespace RdmaPaxos.Election

open RdmaPaxos.Run RdmaPaxos.ByteMemory

/-! ## §1. The log of a voter. -/

/-- What moved `log->end` last. -/
inductive EndMove where
  | created
  | fetched
  | accepted
  deriving Repr, DecidableEq

/-- The log, and the accept thread inside an iteration (after `log_get_entry`) or
between two. -/
structure AcceptLog where
  log : DareLog
  inside : Bool
  last : EndMove

/-- What happens to a log: entries arrive, and the accept thread looks for them. -/
inductive LogEvent where
  /-- the leader's RDMA writes -/
  | arrive (entries : Mem)
  /-- `log_get_entry` of `handle_accept_req` -/
  | fetch
  /-- the rest of the iteration -/
  | accept

/-- A log as `log_new` makes it. -/
def AcceptLog.new : AcceptLog := ⟨logNew, false, .created⟩

/-- The entry at `end` is accepted. -/
def AcceptLog.advance (a : AcceptLog) : AcceptLog :=
  ⟨{ a.log with
    tailOff := a.log.endOff
    endOff := (a.log.endOff + logEntryLen a.log.entries a.log.endOff) % 2 ^ 64 }, false, .accepted⟩

/-- `log_get_entry` on `end`. -/
def AcceptLog.fetch (a : AcceptLog) : AcceptLog :=
  ⟨{ a.log with endOff := logGetEntry a.log a.log.endOff }, true, .fetched⟩

/-- One event of a log. -/
def AcceptLog.step (a : AcceptLog) : LogEvent → Option AcceptLog
  | .arrive entries => some { a with log := { a.log with entries := entries } }
  | .fetch =>
      if a.inside then none else some a.fetch
  | .accept =>
      if a.inside then
        if entryDetected a.log.entries a.log.endOff then some a.advance
        else some { a with inside := false }
      else none

/-- A new log has its `end` at `len`, and `log_get_entry` leaves it elsewhere. -/
structure AcceptLog.Ok (a : AcceptLog) : Prop where
  len : a.log.len = logSize
  created : a.last = .created → a.log.endOff = logSize
  fetched : a.last = .fetched → a.log.endOff ≠ logSize

/-- `log_get_entry` never returns `len`. -/
theorem logGetEntry_ne {log : DareLog} (hlen : log.len = logSize) (offset : Nat) :
    logGetEntry log offset ≠ logSize := by
  unfold logGetEntry logFitEntryHeader sub64
  rw [hlen]
  intro heq
  split at heq
  next hfit =>
    subst heq
    exact absurd hfit (by decide)
  next => exact absurd heq (by decide)

-- The new log as a whole: a projection of it would make the kernel compare the offsets.
theorem AcceptLog.fetch_log (a : AcceptLog) :
    a.fetch.log = { a.log with endOff := logGetEntry a.log a.log.endOff } := rfl

theorem AcceptLog.fetch_last (a : AcceptLog) : a.fetch.last = .fetched := rfl

/-- `log_get_entry`. -/
theorem AcceptLog.Ok.fetch {a : AcceptLog} (h : a.Ok) : a.fetch.Ok := by
  refine ⟨?_, fun hlast => ?_, fun _ => ?_⟩
  · rw [a.fetch_log]
    exact h.len
  · rw [a.fetch_last] at hlast
    cases hlast
  · rw [a.fetch_log]
    exact logGetEntry_ne h.len _

theorem AcceptLog.advance_len (a : AcceptLog) : a.advance.log.len = a.log.len := by
  obtain ⟨⟨endOff, tailOff, len, entries⟩, inside, last⟩ := a
  rfl

theorem AcceptLog.advance_last (a : AcceptLog) : a.advance.last = .accepted := rfl

/-- An entry is accepted. -/
theorem AcceptLog.Ok.advance {a : AcceptLog} (h : a.Ok) : a.advance.Ok := by
  refine ⟨a.advance_len.trans h.len, fun hlast => ?_, fun hlast => ?_⟩
  · rw [a.advance_last] at hlast
    cases hlast
  · rw [a.advance_last] at hlast
    cases hlast

/-- **The step lemma of a log.** -/
theorem AcceptLog.Ok.preserved {a a' : AcceptLog} {e : LogEvent} (h : a.Ok)
    (hstep : a.step e = some a') : a'.Ok := by
  cases e with
  | arrive entries =>
      cases hstep
      exact ⟨h.len, h.created, h.fetched⟩
  | fetch =>
      simp only [AcceptLog.step] at hstep
      split at hstep
      · cases hstep
      · obtain rfl := Option.some.inj hstep
        exact h.fetch
  | accept =>
      simp only [AcceptLog.step] at hstep
      split at hstep
      · split at hstep
        · obtain rfl := Option.some.inj hstep
          exact h.advance
        · obtain rfl := Option.some.inj hstep
          exact ⟨h.len, h.created, h.fetched⟩
      · cases hstep

/-! ## §2. The group and its logs. -/

/-- The servers, their logs and, for a candidate and a voter, the voter's log when it
sent the ack that was delivered last since the candidate's last `start_election`. -/
structure Voting where
  group : Group
  logs : Nat → AcceptLog
  acked : Nat → Nat → Option AcceptLog

/-- An event of a server's event loop or of its accept thread. -/
inductive VotingEvent where
  /-- the event loop of server `i` -/
  | server (i : Nat) (ev : Event)
  /-- the accept thread of server `i` -/
  | log (i : Nat) (ev : LogEvent)

/-- Before the first election, with new logs and no acks. -/
def Voting.initial (n : Nat) : Voting := ⟨Group.initial n, fun _ => .new, fun _ _ => none⟩

/-- `start_election` forgets the acks; an ack is delivered when it is posted. -/
def Voting.ackedAfter (s : Voting) (i : Nat) : Event → Nat → Nat → Option AcceptLog
  | .hbReceive =>
      if startsElection s.group.size i (s.group.servers i) then
        Function.update s.acked i fun _ => none
      else s.acked
  | .run =>
      if (s.group.servers i).pc = .ack then
        let c := sidGetIdx (s.group.servers i).sid
        Function.update s.acked c (Function.update (s.acked c) i (some (s.logs i)))
      else s.acked
  | _ => s.acked

/-- Only the accept thread moves a log. -/
def Event.isLogMoves : Event → Bool
  | .logMoves _ => true
  | _ => false

/-- One event; the event loop reads `end` as the accept thread left it. -/
def Voting.step (s : Voting) : VotingEvent → Option Voting
  | .server i ev =>
      if ev.isLogMoves then none
      else (Election.step s.group (i, ev)).map fun g =>
        { s with group := g, acked := s.ackedAfter i ev }
  | .log i ev =>
      ((s.logs i).step ev).bind fun a =>
        (Election.step s.group (i, .logMoves a.log.endOff)).map fun g =>
          { s with group := g, logs := Function.update s.logs i a }

/-! ## §3. `poll_vote_count`. -/

/-- The servers whose ack server `i` counts. -/
def countedVotes (n i : Nat) (s : Server) : List Nat :=
  (List.range n).filter fun j => j ≠ i ∧ s.voteAck j ≠ logSize

/-- A vote is counted unless its slot has the value of a new log's `end`. -/
theorem mem_countedVotes {n i v : Nat} {s : Server} (hv : v < n) (hne : v ≠ i) :
    v ∈ countedVotes n i s ↔ s.voteAck v ≠ logSize := by
  unfold countedVotes
  simp [hv, hne]

/-- The count goes from slot to slot. -/
theorem countedVotes_succ (j i : Nat) (s : Server) :
    (countedVotes (j + 1) i s).length
      = if j = i ∨ s.voteAck j = logSize then (countedVotes j i s).length
        else (countedVotes j i s).length + 1 := by
  unfold countedVotes
  rw [List.range_succ, List.filter_append, List.length_append, List.filter_singleton]
  by_cases h : j = i ∨ s.voteAck j = logSize
  · have hno : ¬ (j ≠ i ∧ s.voteAck j ≠ logSize) := fun hyes => h.elim hyes.1 hyes.2
    rw [if_pos h, decide_eq_false hno]
    rfl
  · rw [if_neg h, decide_eq_true (not_or.mp h)]
    rfl

/-- **The loop of `poll_vote_count`**, which starts with the own vote. -/
theorem runAlone_count {n i j : Nat} (s : Server) (hj : j ≤ n) (fuel : Nat) :
    runAlone n i (j + fuel) { s with pc := .count 0 1 }
      = runAlone n i fuel { s with pc := .count j ((countedVotes j i s).length + 1) } := by
  induction j generalizing fuel with
  | zero => rw [Nat.zero_add]; rfl
  | succ j ih =>
      rw [Nat.add_right_comm, Nat.add_assoc, ih (by omega)]
      refine runAlone_silent none ?_
      unfold runCallback
      dsimp only
      rw [if_pos (by omega), countedVotes_succ]
      split <;> rfl

/-! ## §4. What the slots hold. -/

section Local
variable {n i : Nat} {s s' : Server} {e : Effect} {ev : Event}

/-- Only the accept thread moves `end`. -/
theorem Act.logEnd_eq (h : Act n i s ev s' e) (hev : ev.isLogMoves = false) :
    s'.logEnd = s.logEnd := by
  cases h with
  | logMoves logEnd => cases hev
  | _ => rfl

/-- Every step but the ack leaves the slots of the peers alone, and the own ones
unless it starts an election. -/
theorem Act.voteAck_eq (h : Act n i s ev s' e) (hack : ev = .run → s.pc ≠ .ack) :
    (∀ c l, e.write ≠ some (c, .voteAck l))
      ∧ (s'.voteAck = s.voteAck ∨ ev = .hbReceive ∧ e.vote ≠ none) := by
  cases h with
  | elect hb htimer hi => exact ⟨fun c l hw => (by cases hw), .inr ⟨rfl, fun hv => (by cases hv)⟩⟩
  | beat hpc hwrite | request hpc hwrite =>
      refine ⟨fun c l hw => ?_, .inl rfl⟩
      cases (hwrite c _ hw).2.2
  | ack hpc => exact absurd hpc (hack rfl)
  | _ => exact ⟨fun c l hw => (by cases hw), .inl rfl⟩

/-- A vote ack is the voter's `end`, written at the candidate. -/
theorem act_ack (hpc : s.pc = .ack) (h : act n i s .run = some (s', e)) :
    s'.voteAck = s.voteAck ∧ e.write = some (sidGetIdx s.sid, .voteAck s.logEnd) := by
  simp only [act, runCallback, hpc] at h
  cases h
  exact ⟨rfl, rfl⟩

end Local

section Slots
variable {g : Group} {i : Nat} {s' : Server} {e : Effect}

/-- The ack slots of the server that takes a step. -/
theorem setServer_voteAck (k : Nat) :
    ((g.setServer i s').servers k).voteAck
      = if k = i then s'.voteAck else (g.servers k).voteAck := by
  show (Function.update g.servers i s' k).voteAck = _
  by_cases hk : k = i
  · rw [hk, Function.update_self, if_pos rfl]
  · rw [Function.update_of_ne hk, if_neg hk]

/-- A step that sends no vote ack changes no other server's slots. -/
theorem after_voteAck (hw : ∀ c l, e.write ≠ some (c, .voteAck l)) (k : Nat) :
    ((((g.setServer i s').deliver i e.write).record i e.vote).servers k).voteAck
      = if k = i then s'.voteAck else (g.servers k).voteAck := by
  rw [after_servers, ← setServer_voteAck]
  cases hwrite : e.write with
  | none => rfl
  | some target =>
      obtain ⟨j, w⟩ := target
      show (Function.update (g.setServer i s').servers j _ k).voteAck = _
      by_cases hk : k = j
      · rw [hk, Function.update_self]
        cases w with
        | voteAck l => exact absurd hwrite (hw j l)
        | hb _ | voteReq _ => rfl
      · rw [Function.update_of_ne hk]

/-- A vote ack changes one slot of the candidate. -/
theorem after_voteAck_ack {c l : Nat} (hw : e.write = some (c, .voteAck l))
    (hs : s'.voteAck = (g.servers i).voteAck) (k v : Nat) :
    ((((g.setServer i s').deliver i e.write).record i e.vote).servers k).voteAck v
      = if k = c ∧ v = i then l else (g.servers k).voteAck v := by
  have hset : ∀ k, ((g.setServer i s').servers k).voteAck = (g.servers k).voteAck := by
    intro k
    rw [setServer_voteAck, hs]
    split
    next hk => rw [hk]
    next => rfl
  rw [after_servers, hw]
  show (Function.update (g.setServer i s').servers c _ k).voteAck v = _
  by_cases hk : k = c
  · subst hk
    rw [Function.update_self]
    show Function.update ((g.setServer i s').servers k).voteAck i l v = _
    rw [hset]
    by_cases hv : v = i
    · rw [hv, Function.update_self, if_pos ⟨rfl, rfl⟩]
    · rw [Function.update_of_ne hv, if_neg fun h => hv h.2]
  · rw [Function.update_of_ne hk, hset, if_neg fun h => hk h.1]

end Slots

/-- An ack slot holds `log->end` as it was when the ack was sent. -/
structure VotingOk (s : Voting) : Prop where
  log : ∀ i, (s.logs i).Ok
  logEnd : ∀ i, (s.group.servers i).logEnd = (s.logs i).log.endOff
  acked : ∀ c v a, s.acked c v = some a →
    a.Ok ∧ (s.group.servers c).voteAck v = a.log.endOff

/-- Before the first election. -/
theorem VotingOk.initial (n : Nat) : VotingOk (Voting.initial n) :=
  ⟨fun _ => ⟨rfl, fun _ => rfl, fun h => by cases h⟩, fun _ => rfl, fun _ _ _ h => by cases h⟩

/-- Without an ack, `acked` only forgets. -/
theorem Voting.acked_of_ackedAfter {s : Voting} {i c v : Nat} {ev : Event} {a : AcceptLog}
    (hack : ev = .run → (s.group.servers i).pc ≠ .ack) (h : s.ackedAfter i ev c v = some a) :
    s.acked c v = some a
      ∧ (ev = .hbReceive → startsElection s.group.size i (s.group.servers i) = true → c ≠ i) := by
  cases ev with
  | hbReceive =>
      simp only [Voting.ackedAfter] at h
      split at h
      next hstart =>
        by_cases hc : c = i
        · rw [hc, Function.update_self] at h
          cases h
        · rw [Function.update_of_ne hc] at h
          exact ⟨h, fun _ _ => hc⟩
      next hstart => exact ⟨h, fun _ htrue => absurd htrue hstart⟩
  | run =>
      simp only [Voting.ackedAfter, if_neg (hack rfl)] at h
      exact ⟨h, fun heq => (by cases heq)⟩
  | hbSend | poll | logMoves _ => exact ⟨h, fun heq => (by cases heq)⟩

/-- A server takes a step. -/
theorem VotingOk.server {s s' : Voting} {i : Nat} {ev : Event} (h : VotingOk s)
    (hstep : s.step (.server i ev) = some s') : VotingOk s' := by
  simp only [Voting.step] at hstep
  split at hstep
  next => cases hstep
  next hev =>
    obtain ⟨g, hg, rfl⟩ := Option.map_eq_some_iff.mp hstep
    obtain ⟨t, e, -, hact, rfl⟩ := step_act hg
    have hAct := act_cases hact
    refine ⟨h.log, fun k => ?_, fun c v a ha => ?_⟩
    · dsimp only
      rw [after_field Server.logEnd (fun _ _ w => by cases w <;> rfl)]
      split
      next hk => rw [hAct.logEnd_eq (by simpa using hev), hk]; exact h.logEnd i
      next => exact h.logEnd k
    · dsimp only at ha ⊢
      by_cases hack : ev = .run ∧ (s.group.servers i).pc = .ack
      · -- the ack is written: slot and log of the voter are those of this step
        obtain ⟨rfl, hpc⟩ := hack
        obtain ⟨hsame, hwrite⟩ := act_ack hpc hact
        rw [after_voteAck_ack hwrite hsame]
        simp only [Voting.ackedAfter, if_pos hpc] at ha
        by_cases hc : c = sidGetIdx (s.group.servers i).sid
        · subst hc
          rw [Function.update_self] at ha
          by_cases hv : v = i
          · subst hv
            rw [Function.update_self] at ha
            cases ha
            rw [if_pos ⟨rfl, rfl⟩]
            exact ⟨h.log v, h.logEnd v⟩
          · rw [Function.update_of_ne hv] at ha
            rw [if_neg fun hh => hv hh.2]
            exact h.acked _ v a ha
        · rw [Function.update_of_ne hc] at ha
          rw [if_neg fun hh => hc hh.1]
          exact h.acked c v a ha
      · have hack' : ev = .run → (s.group.servers i).pc ≠ .ack := fun hrun hpc => hack ⟨hrun, hpc⟩
        obtain ⟨hsilent, hown⟩ := hAct.voteAck_eq hack'
        obtain ⟨hold, hne⟩ := Voting.acked_of_ackedAfter hack' ha
        obtain ⟨hok, hslot⟩ := h.acked c v a hold
        refine ⟨hok, ?_⟩
        rw [after_voteAck hsilent]
        -- a slot is cleared by its owner's next election only, and the record of it with it
        by_cases hc : c = i
        · subst hc
          rw [if_pos rfl]
          rcases hown with hsame | ⟨rfl, hvote⟩
          · rw [hsame]
            exact hslot
          · exact absurd rfl (hne rfl (startsElection_of_vote hAct hvote))
        · rw [if_neg hc]
          exact hslot

/-- An accept thread takes a step. -/
theorem VotingOk.logEvent {s s' : Voting} {i : Nat} {ev : LogEvent} (h : VotingOk s)
    (hstep : s.step (.log i ev) = some s') : VotingOk s' := by
  obtain ⟨a, ha, hrest⟩ := Option.bind_eq_some_iff.mp hstep
  obtain ⟨g, hg, rfl⟩ := Option.map_eq_some_iff.mp hrest
  obtain ⟨t, e, -, hact, rfl⟩ := step_act hg
  cases hact
  refine ⟨fun k => ?_, fun k => ?_, fun c v b hb => ?_⟩
  · dsimp only
    by_cases hk : k = i
    · rw [hk, Function.update_self]
      exact (h.log i).preserved ha
    · rw [Function.update_of_ne hk]
      exact h.log k
  · dsimp only
    rw [after_field Server.logEnd (fun _ _ w => by cases w <;> rfl)]
    by_cases hk : k = i
    · rw [hk, Function.update_self, if_pos rfl]
    · rw [Function.update_of_ne hk, if_neg hk]
      exact h.logEnd k
  · obtain ⟨hok, hslot⟩ := h.acked c v b hb
    refine ⟨hok, ?_⟩
    dsimp only
    rw [after_voteAck (fun _ _ hw => by cases hw)]
    split
    next hc =>
      subst hc
      exact hslot
    next => exact hslot

/-- **The step lemma.** -/
theorem VotingOk.preserved {s s' : Voting} {e : VotingEvent} (h : VotingOk s)
    (hstep : s.step e = some s') : VotingOk s' := by
  cases e with
  | server i ev => exact h.server hstep
  | log i ev => exact h.logEvent hstep

/-! ## §5. The theorem. -/

/-- **Delivered votes.**  In every run of the group and its logs, whatever entries
arrive and are accepted: a vote that was delivered to a candidate after its last
`start_election` is counted by `poll_vote_count` exactly if the voter's `log->end` was
not `log->len` when it sent the ack.  It was, as long as the accept thread had not yet
called `log_get_entry` on a new log; it was not, if that call was the last to move
`end`. -/
theorem delivered_vote_counted_iff {n : Nat} {s : Voting}
    (h : Reaches Voting.step (fun _ _ => True) (Voting.initial n) s) {c v : Nat} {a : AcceptLog}
    (hv : v < n) (hne : v ≠ c) (hacked : s.acked c v = some a) :
    (v ∈ countedVotes n c (s.group.servers c) ↔ a.log.endOff ≠ a.log.len)
    ∧ (a.last = .created → v ∉ countedVotes n c (s.group.servers c))
    ∧ (a.last = .fetched → v ∈ countedVotes n c (s.group.servers c))
    ∧ ∀ fuel, runAlone n c (n + fuel) { s.group.servers c with pc := .count 0 1 }
        = runAlone n c fuel { s.group.servers c with
            pc := .count n ((countedVotes n c (s.group.servers c)).length + 1) } := by
  have hok : VotingOk s := h.invariant (VotingOk.initial n)
    fun _ _ _ hs _ hstep => hs.preserved hstep
  obtain ⟨ha, hslot⟩ := hok.acked c v a hacked
  rw [mem_countedVotes hv hne, hslot, ha.len]
  exact ⟨Iff.rfl, fun hlast => not_not.mpr (ha.created hlast), ha.fetched,
    fun fuel => runAlone_count _ (Nat.le_refl n) fuel⟩

/-- Server 2 of three gives its vote for term 3 to server 1, after these events of its
log. -/
def voteAfter (events : List LogEvent) : List VotingEvent :=
  events.map (.log 2)
    ++ (elect 3 2 ++ elect 3 1 ++ elect 3 1 ++ polls 2 13).map fun a => .server a.1 a.2

/-- The accept thread has looked at the empty log: the vote counts. -/
theorem delivered_vote_counted_iff_fetched :
    ∃ s a, Reaches Voting.step (fun _ _ => True) (Voting.initial 3) s ∧ s.acked 1 2 = some a
      ∧ 2 ∈ countedVotes 3 1 (s.group.servers 1) := by
  obtain ⟨s, hs, hv⟩ := exists_reaches_of_execOk Voting.step (fun _ _ => True) (Voting.initial 3)
    (voteAfter [.fetch]) (fun s => (s.acked 1 2).map AcceptLog.last) (v := some .fetched)
    (by decide +kernel)
  obtain ⟨a, ha, hlast⟩ := Option.map_eq_some_iff.mp hv
  exact ⟨s, a, hs, ha, (delivered_vote_counted_iff hs (by decide) (by decide) ha).2.2.1 hlast⟩

/-- An entry as long as the whole log: its size, 216 bytes less, in little endian, and
`DUMMY_END` as its last byte. -/
def fullEntry : Mem := fun k =>
  if k = 192 then 0x28 else if k = 193 then 0xFF else if k = 194 then 0xFF
  else if k = 195 then 0x0F else if k = logSize - 1 then dummyEnd else 0

theorem exists_lost_vote (events : List LogEvent) {last : EndMove}
    (hrun : (execOk Voting.step (fun _ _ => True) (Voting.initial 3) (voteAfter events)).map
      (fun s => ((s.acked 1 2).map AcceptLog.last, countedVotes 3 1 (s.group.servers 1)))
        = some (some last, [])) :
    ∃ s a, Reaches Voting.step (fun _ _ => True) (Voting.initial 3) s ∧ s.acked 1 2 = some a
      ∧ a.last = last ∧ 2 ∉ countedVotes 3 1 (s.group.servers 1) := by
  obtain ⟨s, hs, hv⟩ := exists_reaches_of_execOk _ _ _ _ _ hrun
  obtain ⟨hacked, hcounted⟩ := Prod.mk.inj hv
  obtain ⟨a, ha, hlast⟩ := Option.map_eq_some_iff.mp hacked
  refine ⟨s, a, hs, ha, hlast, ?_⟩
  rw [hcounted]
  exact List.not_mem_nil

/-- The vote of a server whose log is new, and of one whose log has just been filled
exactly, is delivered and not counted. -/
theorem delivered_vote_lost :
    (∃ s a, Reaches Voting.step (fun _ _ => True) (Voting.initial 3) s ∧ s.acked 1 2 = some a
      ∧ a.last = .created ∧ 2 ∉ countedVotes 3 1 (s.group.servers 1))
    ∧ ∃ s a, Reaches Voting.step (fun _ _ => True) (Voting.initial 3) s ∧ s.acked 1 2 = some a
      ∧ a.last = .accepted ∧ 2 ∉ countedVotes 3 1 (s.group.servers 1) := by
  constructor
  · exact exists_lost_vote [] (by decide +kernel)
  · exact exists_lost_vote [.arrive fullEntry, .fetch, .accept] (by decide +kernel)

end RdmaPaxos.Election
