/-
  RdmaPaxos.Consensus.Agreement
  ─────────────────────────────
  **AGREEMENT, AND WHAT IT RESTS ON.**

  Nothing in the protocol ties a stamp to one proposer: `init_consensus_comp`
  restarts every process at (1,0), and `handle_accept_req` leaves the checks of
  the view and of the sender empty.  Two leaders, or two lives of one leader,
  give the same stamp to different requests, and a follower that has joined both
  stores and acks both.

  Agreement does hold as long as one process makes all submissions, no log wraps and
  no follower reads a size in part, whatever the other nodes do: crash, restart, rejoin,
  fail to store.
-/
import RdmaPaxos.Consensus.Safety

namespace RdmaPaxos

open RdmaPaxos.ByteMemory RdmaPaxos.Run

/-- The requests counted as committed, by any node at any time: quorum reached
and `highest_committed_vs` advanced over the stamp. -/
def World.commits (w : World) : List (ViewStamp × Record) :=
  (w.calls.filter fun c => c.pc = .done).map fun c => (c.next, c.req.record c.next)

/-- One stamp is committed with one record only, and no store holds a different
record under it. -/
def Agreement (w : World) : Prop :=
  (∀ v ∈ w.commits, ∀ v' ∈ w.commits, v.1 = v'.1 → v.2 = v'.2)
    ∧ ∀ v ∈ w.commits, ∀ i b, w.db i (vstol v.1) = some b → Record.decode b = v.2

theorem mem_commits {w : World} {v : ViewStamp × Record} (h : v ∈ w.commits) :
    ∃ (id : Nat) (c : Call), w.calls[id]? = some c ∧ v = (c.next, c.req.record c.next) := by
  obtain ⟨c, hc, hv⟩ := List.mem_map.mp h
  obtain ⟨id, hid⟩ := List.mem_iff_getElem?.mp (List.mem_filter.mp hc).1
  exact ⟨id, c, hid, hv.symm⟩

/-- The invariant of one leader gives agreement. -/
theorem Inv.agrees {l p : Nat} {w : World} (h : Inv Request.Any l p w) : Agreement w := by
  have hshort := h.length_lt
  refine ⟨fun v hv v' hv' heq => ?_, fun v hv i b hb => ?_⟩
  · obtain ⟨id, c, hc, rfl⟩ := mem_commits hv
    obtain ⟨id', c', hc', rfl⟩ := mem_commits hv'
    have hid : id < w.calls.length := (List.getElem?_eq_some_iff.mp hc).1
    have hid' : id' < w.calls.length := (List.getElem?_eq_some_iff.mp hc').1
    -- equal stamps are equal positions in the one sequence of submissions
    have hstamp : vstol (stampOf id) = vstol (stampOf id') := by
      rw [← (h.call id c hc).next, ← (h.call id' c' hc').next]
      exact congrArg vstol heq
    obtain rfl := vstol_stampOf_inj (by omega) (by omega) hstamp
    rw [hc] at hc'
    cases hc'
    rfl
  · obtain ⟨id, c, hc, rfl⟩ := mem_commits hv
    have hnext := (h.call id c hc).next
    rw [hnext] at hb ⊢
    exact h.decode_eq (requests_get hc) hb

/-- **Agreement for one submitting process.**  In every run from a group that is
not started, in which process `p` of node `l` makes all submissions, no log wraps
and no size is read in part, agreement holds in every state. -/
theorem agreement {n l p : Nat} {w : World}
    (h : Reaches step (WholeSizes (SoleLeader l p)) (World.initial n) w) : Agreement w :=
  (reaches_inv (Inv.initial n l p) (fun _ _ hok => hok.1) (.inr fun _ _ hok => hok.2) h).agrees

/-- Node `l` starts in mode `'s'`, node 1 joins it as process `p` of its own, and
they exchange addresses. -/
def joinOne (l p : Nat) : List Action :=
  [.start l true, .start 1 false, .joinReply 1 l, .connect l 1 p, .connect 1 l 1]

/-- Node `l` of a group of three submits `q` as call `id` and commits it with the
ack `a` of node 1. -/
def commitOne (l id a : Nat) (q : Request) : List Action :=
  [.submit l q] ++ callSteps id 8 ++ [.deliverEntry id 1 (217 + q.data.size)] ++ replicaSteps 1 5
    ++ [.deliverAck a 24] ++ callSteps id 13

/-- What has been committed, and what the three nodes have stored under (1,1). -/
def firstStamp (w : World) : List (ViewStamp × Record) × List (Option Record) :=
  (w.commits, (List.range 3).map fun i => (w.db i (vstol ⟨1, 1⟩)).map Record.decode)

/-- Node 1 restarts after the commit and joins the same leader again. -/
theorem agreement_restart :
    ∃ w, Reaches step (WholeSizes (SoleLeader 0 1)) (World.initial 3) w
      ∧ w.commits = [(⟨1, 1⟩, (sendReq 65).record ⟨1, 1⟩)] ∧ (w.nodes 1).region = 2
      ∧ Agreement w := by
  obtain ⟨w, hw, hval⟩ := exists_reaches_of_execOk step (WholeSizes (SoleLeader 0 1))
    (World.initial 3) (joinOne 0 1 ++ commitOne 0 0 0 (sendReq 65)
      ++ [.crash 1, .start 1 false, .joinReply 1 0, .destroy 0 1, .connect 0 1 2, .connect 1 0 1])
    (fun w => (w.commits, (w.nodes 1).region))
    (v := ([(⟨1, 1⟩, (sendReq 65).record ⟨1, 1⟩)], 2)) (by decide +kernel)
  exact ⟨w, hw, (Prod.mk.inj hval).1, (Prod.mk.inj hval).2, agreement hw⟩

/-- Any step at any time. -/
def Unrestricted (_ : World) (_ : Action) : Prop := True

instance (w : World) (a : Action) : Decidable (Unrestricted w a) := isTrue trivial

/-- The record of payload "A", which the first leader gives the stamp (1,1). -/
def recordA : Record := (sendReq 65).record ⟨1, 1⟩
/-- The record of payload "B", which the second one gives the same stamp. -/
def recordB : Record := (sendReq 66).record ⟨1, 1⟩

/-- Leader 0 commits (1,1) with node 1; node 1 restarts and joins leader 2, which
commits another request as (1,1).  The record of the first majority is replaced
on node 1. -/
theorem agreement_fails :
    ∃ w₁ w₂, Reaches step Unrestricted (World.initial 3) w₁ ∧ Reaches step Unrestricted w₁ w₂
      ∧ firstStamp w₁ = ([(⟨1, 1⟩, recordA)], [some recordA, some recordA, none])
      ∧ firstStamp w₂ = ([(⟨1, 1⟩, recordA), (⟨1, 1⟩, recordB)],
          [some recordA, some recordB, some recordB])
      ∧ ¬ Agreement w₂ := by
  obtain ⟨w₁, w₂, h₁, h₂, hval⟩ := exists_reaches_of_execOk_two step Unrestricted (World.initial 3)
    (joinOne 0 1 ++ commitOne 0 0 0 (sendReq 65))
    (.crash 1 :: joinOne 2 2 ++ commitOne 2 1 1 (sendReq 66))
    (fun w₁ w₂ => (firstStamp w₁, firstStamp w₂))
    (v := (([(⟨1, 1⟩, recordA)], [some recordA, some recordA, none]),
      ([(⟨1, 1⟩, recordA), (⟨1, 1⟩, recordB)], [some recordA, some recordB, some recordB])))
    (by decide +kernel)
  obtain ⟨hfirst, hsecond⟩ := Prod.mk.inj hval
  refine ⟨w₁, w₂, h₁, h₂, hfirst, hsecond, fun hagree => ?_⟩
  have hcommits : w₂.commits = [(⟨1, 1⟩, recordA), (⟨1, 1⟩, recordB)] := congrArg Prod.fst hsecond
  have heq : recordA = recordB :=
    hagree.1 (⟨1, 1⟩, recordA) (by simp [hcommits]) (⟨1, 1⟩, recordB) (by simp [hcommits]) rfl
  exact absurd heq (by decide)

end RdmaPaxos
