/-
  RdmaPaxos.Consensus.Membership
  ──────────────────────────────
  **STARTING, STOPPING, JOINING AND RECONNECTING KEEP THE INVARIANT.**

  A process that starts, or relaunches RDMA, has an empty log that nothing in
  flight is addressed to; all other membership steps touch only fields the
  invariant does not look at.  §2 does the same for the initial worlds.
-/
import RdmaPaxos.Consensus.Invariant

namespace RdmaPaxos

open RdmaPaxos.ByteMemory RdmaPaxos.Ticket

variable {T : Request → Prop} {l p i B : Nat} {w : World}

/-! ## §1. Membership steps. -/

/-- A node whose log has just been created. -/
theorem ReplicaInv.fresh {rs : List Request} {writes : Nat → Option EntryWrite} {nd : Node}
    (hlog : nd.log = logNew) (hpc : nd.pc = .poll) (hacc : nd.accepted = [])
    (hno : ∀ k e, writes k = some e → e.region ≠ nd.region) : ReplicaInv T rs writes i nd := by
  refine ⟨?_, ?_, ?_, ?_, fun entry hack => ?_⟩
  · rw [hlog, hacc]
    exact LogAt.new rs
  · rw [hlog]
    exact ReplicaMem.new rs hno
  · rw [hacc]
    exact .nil T rs
  · unfold ReplicaPcOk
    rw [hpc]
    trivial
  · rw [hpc] at hack
    cases hack

/-- A process that has just started and leads. -/
theorem LeaderInv.fresh {nd : Node} (hlog : nd.log = logNew) (hpc : nd.pc = .poll)
    (hacc : nd.accepted = []) (hseen : nd.seen = ⟨1, 0⟩) (hcom : nd.committed = ⟨1, 0⟩) :
    LeaderInv l [] nd := by
  refine ⟨?_, hseen, hpc, hacc, by rw [hcom], ?_, ?_, ?_⟩
  · rw [hlog]
    exact LogAt.new []
  · rw [hcom]
    exact Ordered.nil
  · intro id c hc
    cases hc
  · intro x _
    rw [hlog]
    rfl

/-- A process that has just started has applied nothing. -/
theorem AppliedInv.fresh {rs : List Request} {writes : Nat → Option EntryWrite} {nd : Node}
    (hpc : nd.pc = .poll) (happ : nd.applied = []) (hcom : nd.committed = ⟨1, 0⟩) :
    AppliedInv T B rs writes nd := by
  refine ⟨by rw [hcom], by simp [happ], by simp [happ], ?_, ?_, ?_⟩
  · intro t v ht
    rw [happ] at ht
    cases ht
  · intro t v b ht
    rw [happ] at ht
    cases ht
  · unfold CommitOk
    rw [hpc, happ, hcom]
    rfl

/-- What is left to show when one process has changed. -/
theorem Inv.withNode (h : Inv T l p w) {nd : Node} (hgroup : GroupInv T l p (w.setNode i nd))
    (hleader : i = l → nd.region = p → LeaderInv l w.calls nd) : Inv T l p (w.setNode i nd) := by
  refine ⟨hgroup, ?_⟩
  rcases eq_or_ne l i with rfl | hne
  · rw [setNode_nodes_self]
    exact hleader rfl
  · rw [setNode_nodes_ne _ _ _ hne]
    exact h.leader

/-- A node is started. -/
theorem Inv.start (h : Inv T l p w) (hi : i < w.size) (modeS : Bool) :
    Inv T l p (w.setNode i ((w.nodes i).boot i modeS)) := by
  have hnew : ∀ k e, w.writesTo i k = some e → e.region ≠ ((w.nodes i).boot i modeS).region := by
    intro k e he
    have := (h.write k i e he).region
    show e.region ≠ (w.nodes i).region + 1
    omega
  refine h.withNode (h.setNode (fun _ => hi) (Nat.le_succ _) (fun j r hr => by cases hr)
    (fun _ _ => ⟨rfl, rfl⟩) (fun _ => ReplicaInv.fresh rfl rfl rfl hnew)
    (fun _ => AppliedInv.fresh rfl rfl rfl)) ?_
  rintro rfl hp
  have hlt : (w.nodes i).region < p := by
    rw [← hp]
    exact Nat.lt_succ_self _
  rw [(h.born hlt).1]
  exact LeaderInv.fresh rfl rfl rfl rfl rfl

/-- A node's RDMA is launched again, with a new log. -/
theorem Inv.relaunch (h : Inv T l p w) (hup : (w.nodes i).up = true)
    (hpc : (w.nodes i).pc = .poll) : Inv T l p (w.setNode i (w.nodes i).relaunch) := by
  -- no write posted so far is addressed to the new region
  have hnew : ∀ k e, w.writesTo i k = some e → e.region ≠ (w.nodes i).relaunch.region := by
    intro k e he
    have := (h.write k i e he).region
    show e.region ≠ (w.nodes i).region + 1
    omega
  have hbefore : ∀ {q : Nat}, (w.nodes i).relaunch.region ≤ q → (w.nodes i).region < q :=
    fun hq => Nat.lt_of_succ_le hq
  refine h.withNode (h.setNode (fun _ => h.members i hup) (Nat.le_succ _) (fun j r hr => by cases hr)
    ?_ (fun _ => ReplicaInv.fresh rfl hpc rfl hnew) ?_) ?_
  · rintro rfl hlt
    exact (h.born (hbefore hlt.le)).2
  · intro hne
    have hold := h.applied i hne
    have hidle : ∀ entry index last, (w.nodes i).pc ≠ .apply entry index last := by
      rw [hpc]
      nofun
    have hidle' : ∀ entry index last, (w.nodes i).relaunch.pc ≠ .apply entry index last := hidle
    exact ⟨hold.view, hold.le, hold.bound, hold.index, hold.record,
      (commitOk_iff hidle').mpr ((commitOk_iff hidle).mp hold.commit)⟩
  · rintro rfl hp
    obtain ⟨hcalls, hseen, hcom⟩ := h.born (hbefore hp.le)
    rw [hcalls]
    exact LeaderInv.fresh rfl hpc rfl hseen hcom

/-- A step that leaves everything but the endpoints, the view and the power. -/
theorem Inv.touch (h : Inv T l p w) {up : Bool} {leaderId : Nat} {conn : Nat → Option Nat}
    (hup : up = true → i < w.size) (hconn : ∀ j r, conn j = some r → r ≤ (w.nodes j).region) :
    Inv T l p (w.setNode i { w.nodes i with up := up, leaderId := leaderId, conn := conn }) := by
  refine h.withNode (h.setNode hup (Nat.le_refl _) hconn ?_ (fun hne => ?_) (fun hne => ?_)) ?_
  · rintro rfl hlt
    exact (h.born hlt).2
  · have hold := h.replica i hne
    exact ⟨hold.pos, hold.mem, hold.accepted, hold.pc, hold.reply⟩
  · have hold := h.applied i hne
    exact ⟨hold.view, hold.le, hold.bound, hold.index, hold.record, hold.commit⟩
  · rintro rfl hp
    have hold := h.leader hp
    exact ⟨hold.pos, hold.seen, hold.pc, hold.accepted, hold.view, hold.ordered, hold.mem,
      hold.beyond⟩

/-! ## §2. Initial worlds. -/

/-- No node is started. -/
theorem Inv.initial (n l p : Nat) : Inv T l p (World.initial n) where
  members i hup := by cases hup
  connected i j r hr := by cases hr
  group hne := absurd rfl hne
  call id c hc := by cases hc
  born _ := ⟨rfl, rfl, rfl⟩
  write id i e he := by cases he
  ack e he := by cases he
  record i key b hb := by cases hb
  stored id c hc := by cases hc
  leader _ := LeaderInv.fresh rfl rfl rfl rfl rfl
  replica i _ := ReplicaInv.fresh rfl rfl rfl fun k e he => by cases he
  applied i _ := AppliedInv.fresh rfl rfl rfl

/-- A booted node has done nothing yet. -/
theorem booted_node {n l : Nat} (i : Nat) : ∃ up region leaderId conn,
    (World.booted n l).nodes i
      = { Node.down with up := up, region := region, leaderId := leaderId, conn := conn }
    ∧ (up = true → i < n) ∧ region = (if i < n then 1 else 0)
    ∧ (∀ j r, conn j = some r → j < n ∧ r = 1) := by
  by_cases hi : i < n
  · refine ⟨true, 1, l, fun j => if j < n ∧ j ≠ i then some 1 else none, ?_, fun _ => hi,
      (if_pos hi).symm, fun j r hr => ?_⟩
    · show ite (i < n) _ _ = _
      rw [if_pos hi]
      rfl
    · dsimp only at hr
      split at hr
      next hj =>
        cases hr
        exact ⟨hj.1, rfl⟩
      next => cases hr
  · refine ⟨false, 0, 9999, fun _ => none, ?_, nofun, (if_neg hi).symm, nofun⟩
    show ite (i < n) _ _ = _
    rw [if_neg hi]
    rfl

theorem booted_member {n l i : Nat} (hi : i < n) : (World.booted n l).nodes i =
    { Node.boot .down i (decide (i = l)) with
      leaderId := l, conn := fun j => if j < n ∧ j ≠ i then some 1 else none } := if_pos hi

theorem booted_applied (n l i : Nat) : ((World.booted n l).nodes i).applied = [] := by
  obtain ⟨_, _, _, _, heq, -⟩ := booted_node (n := n) (l := l) i
  rw [heq]
  rfl

/-- The nodes are started and connected. -/
theorem Inv.booted (n l p : Nat) : Inv T l p (World.booted n l) where
  members i hup := by
    obtain ⟨up, region, leaderId, conn, heq, hi, -, -⟩ := booted_node (n := n) (l := l) i
    rw [heq] at hup
    exact hi hup
  connected i j r hr := by
    obtain ⟨_, _, _, _, heq, -, -, hc⟩ := booted_node (n := n) (l := l) i
    obtain ⟨_, region, _, _, heq', -, hreg, -⟩ := booted_node (n := n) (l := l) j
    rw [heq] at hr
    obtain ⟨hj, rfl⟩ := hc j r hr
    rw [heq']
    show 1 ≤ region
    rw [hreg, if_pos hj]
  group hne := absurd rfl hne
  call id c hc := by cases hc
  born _ := by
    obtain ⟨_, _, _, _, heq, -⟩ := booted_node (n := n) (l := l) l
    rw [heq]
    exact ⟨rfl, rfl, rfl⟩
  write id i e he := by cases he
  ack e he := by cases he
  record i key b hb := by cases hb
  stored id c hc := by cases hc
  leader _ := by
    obtain ⟨_, _, _, _, heq, -⟩ := booted_node (n := n) (l := l) l
    rw [heq]
    exact LeaderInv.fresh rfl rfl rfl rfl rfl
  replica i _ := by
    obtain ⟨_, _, _, _, heq, -⟩ := booted_node (n := n) (l := l) i
    rw [heq]
    exact ReplicaInv.fresh rfl rfl rfl fun k e he => by cases he
  applied i _ := by
    obtain ⟨_, _, _, _, heq, -⟩ := booted_node (n := n) (l := l) i
    rw [heq]
    exact AppliedInv.fresh rfl rfl rfl

end RdmaPaxos
