/-
  RdmaPaxos.Consensus.Completion
  ──────────────────────────────
  **NO SUBMISSION IS EVER STUCK.**

  `leader_handle_submit_req` waits twice: in the recheck loop for a quorum and in the
  spin-wait for its turn.  From every state of a run with one fixed leader in which
  nothing is read before it has arrived, however its threads were interleaved, the
  threads can be scheduled so that all calls return, without a further submission.  The
  schedule:

      §2  every call goes on to its recheck loop,
      §3  every entry arrives,
      §4  every follower accepts all entries and posts its acks,
      §5  every ack arrives,
      §6  the calls leave their loops, in the order of their numbers.

  Each part of it is a measure that can be made smaller (`exists_reaches_of_parts`).
-/
import RdmaPaxos.Lib.Progress
import RdmaPaxos.Consensus.Delivery
import RdmaPaxos.Consensus.Progress
import RdmaPaxos.Consensus.Simulation

namespace RdmaPaxos

open RdmaPaxos.ByteMemory RdmaPaxos.Ticket RdmaPaxos.Run

/-! ## §1. The runs. -/

/-- The runs with one fixed leader, without further submissions. -/
def Settling (n l : Nat) (w : World) (a : Action) : Prop :=
  ReadsArrived n l w a ∧ ∀ i q, a ≠ .submit i q

/-- A state of such a run, after the requests `rs`. -/
structure Live (n l : Nat) (rs : List Request) (w : World) : Prop where
  run : Reaches step (ReadsArrived n l) (World.booted n l) w
  requests : w.requests = rs
  leader : l < n

section Live
variable {n l : Nat} {rs : List Request} {w w' : World} {a : Action}

theorem Live.delivery (h : Live n l rs w) : Delivery n l w := delivery_of_reaches h.leader h.run

theorem Live.replicating (h : Live n l rs w) : Replicating n l w := replicating_of_reaches h.run

theorem Live.inv (h : Live n l rs w) : Inv Request.Any l (w.nodes l).region w := h.replicating.inv

theorem Live.size (h : Live n l rs w) : w.size = n := h.replicating.ballots.size

theorem Live.length (h : Live n l rs w) : w.calls.length = rs.length := by
  rw [← h.requests, length_requests]

/-- An admitted step that submits nothing. -/
theorem Live.next (h : Live n l rs w) (hok : Settling n l w a) (hs : step w a = some w')
    (hreq : w'.requests = w.requests) : Live n l rs w' :=
  ⟨h.run.tail hok.1 hs, hreq.trans h.requests, h.leader⟩

theorem Live.call_lt (h : Live n l rs w) {id : Nat} {c : Call} (hc : w.calls[id]? = some c) :
    id < rs.length := by
  rw [← h.length]
  exact (List.getElem?_eq_some_iff.mp hc).1

/-- A step of a call that is not about to read a node id. -/
theorem Live.callStep (h : Live n l rs w) {id : Nat} {c : Call} (hc : w.calls[id]? = some c)
    (hstep : CallStep w id c true w')
    (hid : ∀ i, c.pc = .ackId i →
      readLE (w.nodes l).log.entries (c.entry + acceptAckSize * i + 8) 4 = i) :
    Settling n l w (.call id true) ∧ step w (.call id true) = some w' ∧ Live n l rs w' := by
  have hcall := h.inv.call id c hc
  have hok : Settling n l w (.call id true) := by
    refine ⟨⟨⟨rfl, trivial⟩, fun c' i hc' hpc => ?_⟩, nofun⟩
    obtain rfl := Option.some.inj (hc.symm.trans hc')
    exact .inr (.inr (hid i hpc))
  have hs : step w (.call id true) = some w' := by
    refine (Step.call hc ?_ ?_ hstep).exec
    · rw [hcall.owner]
      exact h.delivery.linked.up l h.leader
    · rw [hcall.owner, hcall.region]
  exact ⟨hok, hs, h.next hok hs (hstep.requests hc)⟩

end Live

/-! ## §2. Every call goes on to its recheck loop. -/

/-- The steps left up to the recheck loop. -/
def CallPc.left (n : Nat) : CallPc → Nat
  | .sample => n + 5
  | .fill => n + 4
  | .store => n + 3
  | .mark => n + 2
  | .post i => n - i + 1
  | _ => 0

/-- A number that belongs to call `id`. -/
def World.ofCall (w : World) (id : Nat) (f : Call → Nat) : Nat := (w.calls[id]?).elim 0 f

/-- A number read off a call that exists. -/
theorem ofCall_eq {w : World} {id : Nat} {c : Call} (hc : w.calls[id]? = some c) (f : Call → Nat) :
    w.ofCall id f = f c := by
  unfold World.ofCall
  rw [hc]
  rfl

/-- Call `id` moves, the others do not. -/
theorem advances_of_set {xs : List Nat} {w w' : World} {id : Nat} {c c' : Call} {f : Call → Nat}
    (hc : w.calls[id]? = some c) (hcalls : w'.calls = w.calls.set id c') (hless : f c' < f c) :
    Advances xs (fun id w => w.ofCall id f) id w w' := by
  have hlt := (List.getElem?_eq_some_iff.mp hc).1
  refine ⟨?_, fun y _ hy => ?_⟩
  · show w'.ofCall id f < w.ofCall id f
    rw [ofCall_eq hc, ofCall_eq (c := c') (by rw [hcalls]; exact List.getElem?_set_self hlt)]
    exact hless
  · show w'.ofCall y f ≤ w.ofCall y f
    unfold World.ofCall
    rw [hcalls, List.getElem?_set_ne (Ne.symm hy)]

/-- A call past its sending loop has posted everything. -/
theorem CallPc.posted_of_stage {pc : CallPc} (h : 5 ≤ pc.stage) (i : Nat) : pc.posted i = true := by
  cases pc with
  | post => exact absurd h (by decide : ¬ 5 ≤ 4)
  | _ => exact decide_eq_true h

/-- Every call is past its post loop. -/
def AllPosted (w : World) : Prop := ∀ (id : Nat) (c : Call), w.calls[id]? = some c → 5 ≤ c.pc.stage

section Post
variable {n l : Nat} {rs : List Request} {w : World}

/-- A call before its recheck loop can move. -/
theorem CallStep.prepares (hsize : w.size = n) (id : Nat) (c : Call) (hstage : c.pc.stage < 5)
    (hfailed : c.pc ≠ .failed) : ∃ w' c', CallStep w id c true w' ∧ w'.calls = w.calls.set id c'
      ∧ c'.pc.left n < c.pc.left n := by
  cases hpc : c.pc with
  | sample => exact ⟨_, _, .sample hpc, rfl, by simp [CallPc.left]⟩
  | fill => exact ⟨_, _, .fill hpc, rfl, by simp [CallPc.left]⟩
  | store => exact ⟨_, _, .store hpc, rfl, by simp [CallPc.left]⟩
  | mark => exact ⟨_, _, .mark hpc, rfl, by simp [CallPc.left]⟩
  | post i =>
      by_cases hi : i < w.size
      · have hless : n - (i + 1) + 1 < n - i + 1 := by omega
        by_cases hown : i = c.owner
        · exact ⟨_, _, .skip hpc hi (.inl hown), rfl, hless⟩
        · rcases Option.eq_none_or_eq_some ((w.nodes c.owner).conn i) with hnone | ⟨region, hconn⟩
          · exact ⟨_, _, .skip hpc hi (.inr hnone), rfl, hless⟩
          · exact ⟨_, _, .post hpc hi hown hconn, rfl, hless⟩
      · exact ⟨_, _, .posted hpc hi, rfl, by simp [CallPc.left]⟩
  | failed => exact absurd hpc hfailed
  | recheck | ackId | quorum | spin | incRead | incWrite | done =>
      rw [hpc] at hstage
      exact absurd hstage (by simp [CallPc.stage])

/-- Every call can be brought through its sending loop. -/
theorem Live.post (h : Live n l rs w) :
    ∃ w', Reaches step (Settling n l) w w' ∧ Live n l rs w' ∧ AllPosted w' := by
  obtain ⟨w', hrun, hlive, hall⟩ := exists_reaches_of_parts step (Settling n l) (I := Live n l rs)
    (P := fun id w => ∀ c, w.calls[id]? = some c → 5 ≤ c.pc.stage)
    (List.range rs.length) (fun id w => w.ofCall id fun c => c.pc.left n) (fun s hs id hid hP => by
      push Not at hP
      obtain ⟨c, hc, hstage⟩ := hP
      obtain ⟨s', c', hstep, hcalls, hless⟩ := CallStep.prepares hs.size id c hstage
        (hs.delivery.sent.unfailed id c hc)
      obtain ⟨hok, hexec, hs'⟩ := hs.callStep hc hstep fun i hi => by
        rw [hi] at hstage
        exact absurd hstage (by decide : ¬ 5 < 5)
      exact ⟨_, s', hok, hexec, hs', id, hid, advances_of_set hc hcalls hless⟩) h
  refine ⟨w', hrun, hlive, fun id c hc => hall id ?_ c hc⟩
  exact List.mem_range.mpr (hlive.call_lt hc)

end Post

/-! ## §3. Every entry arrives. -/

/-- Every entry is in every follower's log. -/
def AllWhole (n l : Nat) (w : World) : Prop :=
  ∀ id < w.requests.length, ∀ i < n, i ≠ l → Whole (w.writesTo i) (w.nodes i).region id

/-- The bytes of entry `x.1` that server `x.2` does not see yet. -/
def World.hidden (w : World) (x : Nat × Nat) : Nat :=
  (w.entryWrites x.1 x.2).elim 0 fun e => e.len - e.visible

theorem hidden_eq {w : World} {id i : Nat} {e : EntryWrite} (he : w.entryWrites id i = some e) :
    w.hidden (id, i) = e.len - e.visible := by
  unfold World.hidden
  rw [he]
  rfl

/-- Bytes of one write are none of another's. -/
theorem hidden_setEntryWrite_ne (w : World) {id i : Nat} (e : EntryWrite) {x : Nat × Nat}
    (hx : x ≠ (id, i)) : (w.setEntryWrite id i e).hidden x = w.hidden x := by
  have hto : (w.setEntryWrite id i e).writesTo x.2 x.1 = w.writesTo x.2 x.1 := by
    rcases eq_or_ne x.2 i with rfl | hi
    · rw [setEntryWrite_writesTo, Function.update_of_ne fun h => hx (Prod.ext h rfl)]
    · rw [setEntryWrite_writesTo_ne _ _ _ hi]
  show ((w.setEntryWrite id i e).writesTo x.2 x.1).elim 0 _ = (w.writesTo x.2 x.1).elim 0 _
  rw [hto]

section Entries
variable {n l : Nat} {rs : List Request} {w : World}

/-- All bytes of the entries can be brought to arrive. -/
theorem Live.deliverEntries (h : Live n l rs w) (hposted : AllPosted w) :
    ∃ w', Reaches step (Settling n l) w w' ∧ Live n l rs w' ∧ AllPosted w' ∧ AllWhole n l w' := by
  obtain ⟨w', hrun, ⟨hlive, hposted'⟩, hall⟩ := exists_reaches_of_parts step
    (Settling n l) (I := fun w => Live n l rs w ∧ AllPosted w)
    (P := fun x w => x.2 ≠ l → Whole (w.writesTo x.2) (w.nodes x.2).region x.1)
    (List.range rs.length ×ˢ List.range n) (fun x w => w.hidden x)
    (fun s ⟨hs, hp⟩ x hx hP => by
      push Not at hP
      obtain ⟨hil, hwhole⟩ := hP
      obtain ⟨id, i⟩ := x
      obtain ⟨hid, hi⟩ := List.pair_mem_product.mp hx
      have hi : i < n := List.mem_range.mp hi
      have hc := List.getElem?_eq_getElem (l := s.calls) (i := id)
        (by rw [hs.length]; exact List.mem_range.mp hid)
      -- the call is past its post loop, so its entry is on the way
      obtain ⟨e, he, hreg⟩ := hs.delivery.sent.posted id _ i hc hi hil
        (CallPc.posted_of_stage (hp id _ hc) i)
      have hhid : e.visible < e.len := by
        by_contra hge
        exact hwhole ⟨e, he, hreg, by omega⟩
      have hok : Settling n l s (.deliverEntry id i (e.len - e.visible)) :=
        ⟨⟨⟨trivial, trivial⟩, trivial⟩, nofun⟩
      have hexec := (Step.deliverEntry (k := e.len - e.visible) he
        (hs.delivery.linked.up i hi) hreg.symm (by omega)).exec
      refine ⟨_, _, hok, hexec, ⟨hs.next hok hexec rfl, hp⟩, (id, i), hx, ?_, fun y _ hy => ?_⟩
      · show ((s.setEntryWrite id i _).hidden (id, i)) < s.hidden (id, i)
        have hnew : (s.setEntryWrite id i
            { e with visible := e.visible + (e.len - e.visible) }).entryWrites id i
              = some { e with visible := e.visible + (e.len - e.visible) } := by
          show (s.setEntryWrite id i _).writesTo i id = _
          rw [setEntryWrite_writesTo, Function.update_self]
        rw [hidden_eq hnew, hidden_eq he]
        show e.len - (e.visible + (e.len - e.visible)) < e.len - e.visible
        omega
      · exact (hidden_setEntryWrite_ne s _ hy).le) ⟨h, hposted⟩
  refine ⟨w', hrun, hlive, hposted', fun id hid i hi hil => hall (id, i) ?_ hil⟩
  rw [hlive.requests] at hid
  exact List.pair_mem_product.mpr ⟨List.mem_range.mpr hid, List.mem_range.mpr hi⟩

end Entries

/-! ## §4. Every follower accepts all entries. -/

/-- Every follower has accepted every entry, and waits for the next one. -/
def AllAccepted (n l : Nat) (w : World) : Prop :=
  ∀ i < n, i ≠ l → (w.nodes i).accepted.length = w.requests.length ∧ (w.nodes i).pc = .poll

/-- How far a follower is inside its loop; a round that accepts an entry takes four
steps up to it, the ack, and one step per record applied. -/
def ReplicaPc.left (len : Nat) : ReplicaPc → Nat
  | .poll => 4
  | .measure _ => 3
  | .marker _ _ => 2
  | .accept _ => 1
  | .ack _ => len + 9
  | .commit _ => len + 8
  | .apply _ index last => last + 6 - index

/-- The steps a follower needs until it has accepted `len` entries and is idle. -/
def Node.left (len : Nat) (nd : Node) : Nat :=
  if nd.pc = .poll ∧ nd.accepted.length = len then 0
  else (len - nd.accepted.length) * (len + 11) + nd.pc.left len

section Followers
variable {n l i : Nat} {rs : List Request} {w w' : World}

/-- A loop of applying is as long as there are requests. -/
theorem Inv.apply_left {T : Request → Prop} {p : Nat} (h : Inv T l p w) {entry index last : Nat}
    (hpc : (w.nodes i).pc = .apply entry index last) :
    index ≤ last + 1 ∧ last + 6 - index ≤ w.requests.length + 5 := by
  obtain ⟨k, hk⟩ := h.worksOn (.inr (.inr ⟨_, _, hpc⟩))
  have hne := h.seen_ne hk.2.2
  have hle := (h.replica i fun hb => hne hb.1).accepted_le
  have hcommit := (h.applied i hne).commit
  unfold CommitOk at hcommit
  rw [hpc] at hcommit
  obtain ⟨k', e, x, hk', -, -, hx, -, rfl, rfl, hlex⟩ := hcommit
  omega

/-- There is room in a follower's log for the header of an entry the leader has made. -/
theorem Live.notWrapping (h : Live n l rs w) (hil : i ≠ l)
    (hk : (w.nodes i).accepted.length < rs.length) : NotWrapping (w.nodes i).log := by
  have hc := List.getElem?_eq_getElem (l := w.calls) (i := (w.nodes i).accepted.length)
    (by rw [h.length]; exact hk)
  have hin := (h.inv.call _ _ hc).inside
  refine (h.inv.replica i fun hb => hil hb.1).pos.notWrapping (.inr ?_)
  unfold Request.entryLen at hin
  omega

/-- What follower `i` does next: it stays in its round, or accepts an entry. -/
structure Moves (len i : Nat) (w w' : World) : Prop where
  step : ReplicaStep w i true 0 w'
  wrap : (w.nodes i).pc = .poll → NotWrapping (w.nodes i).log
  size : SizeArrived w (.replica i true 0)
  others : ∀ j, j ≠ i → w'.nodes j = w.nodes j
  left : (w'.nodes i).accepted.length = (w.nodes i).accepted.length
      ∧ (w'.nodes i).pc.left len < (w.nodes i).pc.left len
    ∨ (w'.nodes i).accepted.length = (w.nodes i).accepted.length + 1
      ∧ (w'.nodes i).pc.left len = len + 9

/-- A step inside a round of the loop brings the follower closer to its end. -/
theorem Moves.inRound {len : Nat} {nd : Node} (hstep : ReplicaStep w i true 0 (w.setNode i nd))
    (hwrap : (w.nodes i).pc = .poll → NotWrapping (w.nodes i).log)
    (hsize : SizeArrived w (.replica i true 0)) (haccepted : nd.accepted = (w.nodes i).accepted)
    (hleft : nd.pc.left len < (w.nodes i).pc.left len) : Moves len i w (w.setNode i nd) := by
  refine ⟨hstep, hwrap, hsize, fun j hj => setNode_nodes_ne _ _ _ hj, .inl ?_⟩
  rw [setNode_nodes_self, haccepted]
  exact ⟨rfl, hleft⟩

/-- The entry a follower is looking for has arrived. -/
theorem Live.arrivedEntry (h : Live n l rs w) (hwhole : AllWhole n l w) (hi : i < n) (hil : i ≠ l)
    (hk : (w.nodes i).accepted.length < rs.length) :
    ∃ q, w.requests[(w.nodes i).accepted.length]? = some q
      ∧ startOf w.requests (w.nodes i).accepted.length + q.entryLen ≤ logSize
      ∧ EntryBytes (doneCount w.calls) 4 l (w.nodes i).accepted.length q
        (entryAt (w.nodes i).log.entries (startOf w.requests (w.nodes i).accepted.length)) :=
  h.inv.entryBytes hil (hwhole _ (by rw [h.requests]; exact hk) i hi hil)

/-- A follower that is not through has a step. -/
theorem Live.follower_moves (h : Live n l rs w) (hwhole : AllWhole n l w) (hi : i < n) (hil : i ≠ l)
    (hleft : ¬ ((w.nodes i).accepted.length = rs.length ∧ (w.nodes i).pc = .poll)) :
    ∃ w', Moves rs.length i w w' := by
  have hup := h.delivery.linked.up i hi
  have hfollows := h.delivery.linked.follows i hi
  have hrep := h.inv.replica i fun hb => hil hb.1
  have hle := hrep.accepted_le
  have hpcOk := hrep.pc
  have hsize : (∀ entry, (w.nodes i).pc ≠ .measure entry) → SizeArrived w (.replica i true 0) :=
    sizeArrived_of_ne
  rw [h.requests] at hle
  unfold ReplicaPcOk at hpcOk
  cases hpc : (w.nodes i).pc with
  | poll =>
      have hk : (w.nodes i).accepted.length < rs.length := by
        rcases Nat.lt_or_eq_of_le hle with hlt | heq
        · exact hlt
        · exact absurd ⟨heq, hpc⟩ hleft
      have hwrap := h.notWrapping hil hk
      obtain ⟨q, -, hin, hbytes⟩ := h.arrivedEntry hwhole hi hil hk
      have hfound := ReplicaStep.found hpc (by rw [hfollows]; exact Ne.symm hil) hrep.pos.len
        (hrep.pos.getEntry hwrap) hin hbytes
      exact ⟨_, .inRound hfound (fun _ => hwrap) (hsize (by rw [hpc]; nofun)) rfl
        (by rw [hpc]; exact Nat.lt_succ_self 3)⟩
  | measure entry =>
      rw [hpc] at hpcOk
      obtain ⟨hentry, -, e, r, hpost, -⟩ := hpcOk
      have hk : (w.nodes i).accepted.length < w.requests.length :=
        (List.getElem?_eq_some_iff.mp hpost.request).1
      obtain ⟨q, -, hin, hbytes⟩ := h.arrivedEntry hwhole hi hil (by rw [← h.requests]; exact hk)
      rw [← hentry] at hin hbytes
      exact ⟨_, .inRound (.measured hpc hin hbytes) (by rw [hpc]; nofun)
        (sizeArrived_of_whole (h.inv.writeBytes i) hpc hentry (hwhole _ hk i hi hil) true 0) rfl
        (by rw [hpc]; exact Nat.lt_succ_self 2)⟩
  | marker entry len =>
      rw [hpc] at hpcOk
      obtain ⟨hentry, -, e, r, hpost, -, -, hlen⟩ := hpcOk
      have hk : (w.nodes i).accepted.length < w.requests.length :=
        (List.getElem?_eq_some_iff.mp hpost.request).1
      obtain ⟨q, hq, hin, hbytes⟩ := h.arrivedEntry hwhole hi hil (by rw [← h.requests]; exact hk)
      obtain rfl : r = q := Option.some.inj (hpost.request.symm.trans hq)
      obtain rfl := hlen trivial
      rw [← hentry] at hin hbytes
      exact ⟨_, .inRound (.marked hpc hrep.pos.len hin hbytes) (by rw [hpc]; nofun)
        (hsize (by rw [hpc]; nofun)) rfl (by rw [hpc]; exact Nat.lt_succ_self 1)⟩
  | accept entry =>
      refine ⟨_, .accept hpc, by rw [hpc]; nofun, hsize (by rw [hpc]; nofun),
        fun j hj => setNode_nodes_ne _ _ _ hj, .inr ?_⟩
      rw [setNode_nodes_self]
      exact ⟨List.length_append, rfl⟩
  | ack entry =>
      obtain ⟨-, hid⟩ := h.inv.ack_leader hpc
      obtain ⟨k, hk⟩ := h.inv.worksOn (.inl hpc)
      have hlt : l < maxServerCount := by
        have hne : w.calls ≠ [] := by
          intro hnil
          have hacc := hk.1
          have hlen := h.length
          rw [hnil] at hlen
          rw [← hlen, hacc] at hle
          exact absurd hle (by simp)
        have := h.inv.group hne
        omega
      have hstep : ReplicaStep w i true 0 _ := .ack hpc hid hlt
        (h.delivery.linked.conn i hi l h.leader (Ne.symm hil))
      refine ⟨_, hstep, by rw [hpc]; nofun, hsize (by rw [hpc]; nofun),
        fun j hj => setNode_nodes_ne _ _ _ hj, .inl ?_⟩
      show ((w.setNode i _).nodes i).accepted.length = _ ∧ ((w.setNode i _).nodes i).pc.left _ < _
      rw [setNode_nodes_self, hpc]
      exact ⟨rfl, Nat.lt_succ_self _⟩
  | commit entry =>
      refine ⟨_, .inRound (.commit hpc) (by rw [hpc]; nofun) (hsize (by rw [hpc]; nofun)) rfl ?_⟩
      -- the loop it may enter has its length from the state after the step
      have hinv' := h.inv.commit hup hpc
      rw [hpc]
      dsimp only
      split
      next htest =>
        rw [if_pos htest] at hinv'
        have hlen := (hinv'.apply_left (congrArg Node.pc (setNode_nodes_self w i _))).2
        rw [setNode_requests, h.requests] at hlen
        exact Nat.lt_of_le_of_lt hlen (by show rs.length + 5 < rs.length + 8; omega)
      next => exact Nat.lt_of_lt_of_le (by decide : 4 < 8) (Nat.le_add_left 8 _)
  | apply entry index last =>
      obtain ⟨hindex, -⟩ := h.inv.apply_left hpc
      by_cases hdone : index ≤ last
      · refine ⟨_, .inRound (.apply hpc hdone) (by rw [hpc]; nofun) (hsize (by rw [hpc]; nofun)) rfl ?_⟩
        rw [hpc]
        show last + 6 - (index + 1) < last + 6 - index
        omega
      · refine ⟨_, .inRound (.applied hpc hdone) (by rw [hpc]; nofun) (hsize (by rw [hpc]; nofun)) rfl ?_⟩
        rw [hpc]
        show 4 < last + 6 - index
        omega

/-- A move makes the follower's measure smaller. -/
theorem Moves.less {len : Nat} (h : Moves len i w w') (hle : (w'.nodes i).accepted.length ≤ len)
    (hleft : ¬ ((w.nodes i).accepted.length = len ∧ (w.nodes i).pc = .poll)) :
    (w'.nodes i).left len < (w.nodes i).left len := by
  have hold : (w.nodes i).left len = (len - (w.nodes i).accepted.length) * (len + 11)
      + (w.nodes i).pc.left len := if_neg fun hb => hleft ⟨hb.2, hb.1⟩
  have hnew : (w'.nodes i).left len ≤ (len - (w'.nodes i).accepted.length) * (len + 11)
      + (w'.nodes i).pc.left len := by
    unfold Node.left
    split
    · exact Nat.zero_le _
    · exact Nat.le_refl _
  rw [hold]
  refine Nat.lt_of_le_of_lt hnew ?_
  rcases h.left with ⟨hsame, hless⟩ | ⟨hmore, hnext⟩
  · rw [hsame]
    omega
  · -- one entry less to accept pays for the round after it
    have hsub : len - (w.nodes i).accepted.length = len - (w'.nodes i).accepted.length + 1 := by
      omega
    rw [hnext, hsub, Nat.add_mul, Nat.one_mul]
    omega

/-- Every follower can be brought to accept every entry. -/
theorem Live.followers (h : Live n l rs w) (hposted : AllPosted w) (hwhole : AllWhole n l w) :
    ∃ w', Reaches step (Settling n l) w w' ∧ Live n l rs w' ∧ AllPosted w' ∧ AllAccepted n l w' := by
  obtain ⟨w', hrun, ⟨hlive, hposted', -⟩, hall⟩ := exists_reaches_of_parts step
    (Settling n l) (I := fun w => Live n l rs w ∧ AllPosted w ∧ AllWhole n l w)
    (P := fun i w => i ≠ l → (w.nodes i).accepted.length = rs.length ∧ (w.nodes i).pc = .poll)
    (List.range n) (fun i w => (w.nodes i).left rs.length)
    (fun s ⟨hs, hp, hw⟩ i hmem hP => by
      rw [Classical.not_imp] at hP
      obtain ⟨hil, hleft⟩ := hP
      have hi : i < n := List.mem_range.mp hmem
      obtain ⟨s', hmove⟩ := hs.follower_moves hw hi hil hleft
      have hok : Settling n l s (.replica i true 0) :=
        ⟨⟨⟨⟨rfl, fun hpc _ => hmove.wrap hpc⟩, hmove.size⟩, trivial⟩, nofun⟩
      have hexec := (Step.replica (hs.delivery.linked.up i hi) hmove.step).exec
      have hs' := hs.next hok hexec hmove.step.requests
      obtain ⟨-, hcalls, hwrites⟩ := hmove.step.frame
      have hle := (hs'.inv.replica i fun hb => hil hb.1).accepted_le
      rw [hs'.requests] at hle
      refine ⟨_, s', hok, hexec, ⟨hs', fun id c hc => hp id c (hcalls ▸ hc), ?_⟩, i, hmem,
        hmove.less hle hleft, fun j _ hj => ?_⟩
      · intro id hid j hj hjl
        rw [hmove.step.requests] at hid
        rw [(hmove.step.same j).region]
        unfold World.writesTo
        rw [hwrites]
        exact hw id hid j hj hjl
      · show (s'.nodes j).left _ ≤ (s.nodes j).left _
        rw [hmove.others j hj]) ⟨h, hposted, hwhole⟩
  refine ⟨w', hrun, hlive, hposted', fun i hi hil => ?_⟩
  rw [hlive.requests]
  exact hall i (List.mem_range.mpr hi) hil

end Followers

/-! ## §5. Every ack arrives. -/

/-- Every ack is in its slot. -/
def AllArrived (w : World) : Prop := ∀ e ∈ w.ackWrites, e.visible = acceptAckSize

/-- The bytes of ack `a` that the leader does not see yet. -/
def World.hiddenAck (w : World) (a : Nat) : Nat :=
  (w.ackWrites[a]?).elim 0 fun e => acceptAckSize - e.visible

section Acks
variable {n l : Nat} {rs : List Request} {w : World}

/-- All bytes of the acks can be brought to arrive. -/
theorem Live.deliverAcks (h : Live n l rs w) (hposted : AllPosted w) (hacc : AllAccepted n l w) :
    ∃ w', Reaches step (Settling n l) w w' ∧ Live n l rs w' ∧ AllPosted w' ∧ AllAccepted n l w'
      ∧ AllArrived w' := by
  obtain ⟨w', hrun, ⟨hlive, hposted', hacc', hlen⟩, hall⟩ := exists_reaches_of_parts step
    (Settling n l) (I := fun s => Live n l rs s ∧ AllPosted s ∧ AllAccepted n l s
      ∧ s.ackWrites.length = w.ackWrites.length)
    (P := fun a s => ∀ e, s.ackWrites[a]? = some e → e.visible = acceptAckSize)
    (List.range w.ackWrites.length) (fun a s => s.hiddenAck a)
    (fun s ⟨hs, hp, ha, hm⟩ a hmem hP => by
      push Not at hP
      obtain ⟨e, he, hvis⟩ := hP
      have hmemE := List.mem_of_getElem? he
      have hok' := hs.inv.ack e hmemE
      have hle := hok'.visible
      have hlt : a < s.ackWrites.length := (List.getElem?_eq_some_iff.mp he).1
      have hok : Settling n l s (.deliverAck a (acceptAckSize - e.visible)) :=
        ⟨⟨⟨trivial, trivial⟩, trivial⟩, nofun⟩
      have hexec := (Step.deliverAck (k := acceptAckSize - e.visible) he
        (by rw [hok'.dst]; exact hs.delivery.linked.up l hs.leader)
        (by rw [hok'.dst]; exact (hs.delivery.arrived.region e hmemE).symm) (by omega)).exec
      refine ⟨_, _, hok, hexec, ⟨hs.next hok hexec rfl, hp, fun i hi hil => ?_, ?_⟩, a, hmem, ?_,
        fun b _ hb => ?_⟩
      · rw [setNode_field Node.accepted fun hij => by rw [← hij]; rfl,
          setNode_field Node.pc fun hij => by rw [← hij]; rfl]
        exact ha i hi hil
      · exact (List.length_set ..).trans hm
      · show ((s.ackWrites.set a _)[a]?).elim 0 _ < (s.ackWrites[a]?).elim 0 _
        rw [List.getElem?_set_self hlt, he]
        show acceptAckSize - (e.visible + (acceptAckSize - e.visible)) < acceptAckSize - e.visible
        omega
      · show ((s.ackWrites.set a _)[b]?).elim 0 _ ≤ (s.ackWrites[b]?).elim 0 _
        rw [List.getElem?_set_ne (Ne.symm hb)]) ⟨h, hposted, hacc, rfl⟩
  refine ⟨w', hrun, hlive, hposted', hacc', fun e he => ?_⟩
  obtain ⟨a, ha⟩ := List.mem_iff_getElem?.mp he
  refine hall a (List.mem_range.mpr ?_) e ha
  rw [← hlen]
  exact (List.getElem?_eq_some_iff.mp ha).1

end Acks

/-! ## §6. The calls return. -/

/-- The call has passed a slot whose server it has not counted; it will have to go
through the slots once more. -/
def Call.misses (n : Nat) (c : Call) (i : Nat) : Nat :=
  if ∀ j < i, j < n → c.bitMap.testBit j = true then 0 else 60

/-- The steps left up to the return. -/
def Call.left (n : Nat) (c : Call) : Nat :=
  match c.pc with
  | .recheck i => c.misses n i + 3 * (maxServerCount - i) + 6
  | .ackId i => c.misses n i + 3 * (maxServerCount - i) + 5
  | .quorum => c.misses n maxServerCount + 5
  | .spin => 3
  | .incRead => 2
  | .incWrite _ => 1
  | _ => 0

section Return
variable {n l id : Nat} {rs : List Request} {w : World} {c : Call}

/-- All servers counted is a quorum. -/
theorem reachedQuorum_of_all {bitMap : Nat} (hn : 0 < n) (hn64 : n ≤ 64)
    (h : ∀ j < n, bitMap.testBit j = true) : reachedQuorum bitMap n = true := by
  have hsub : (List.range n).length ≤ ((List.range 64).filter bitMap.testBit).length := by
    refine (List.nodup_range.subperm fun j hj => ?_).length_le
    have hj : j < n := List.mem_range.mp hj
    exact List.mem_filter.mpr ⟨List.mem_range.mpr (by omega), h j hj⟩
  rw [List.length_range] at hsub
  exact decide_eq_true (by unfold popcount; omega)

/-- The slot of a server that has acked, once the ack has arrived. -/
theorem Live.slot (h : Live n l rs w) (harrived : AllArrived w) (hc : w.calls[id]? = some c) {i : Nat}
    (hvoted : Voted w.ackWrites i id) :
    readVs (w.nodes l).log.entries (c.entry + acceptAckSize * i) = c.next
      ∧ readLE (w.nodes l).log.entries (c.entry + acceptAckSize * i + 8) 4 = i := by
  obtain ⟨e, he, rfl, hvs⟩ := hvoted
  have hcall := h.inv.call id c hc
  obtain ⟨k, q, hq, hoff, hstamp, hid⟩ := (h.inv.ack e he).slot
  -- the stamp names the entry
  have hshort := h.replicating.short
  have hk : k < w.requests.length := (List.getElem?_eq_some_iff.mp hq).1
  have hlt : id < w.requests.length := (List.getElem?_eq_some_iff.mp (requests_get hc)).1
  obtain rfl : k = id := vstol_stampOf_inj (by omega) (by omega) (by rw [← hstamp, hvs])
  have hbyte : ∀ t < 12, (w.nodes l).log.entries (c.entry + acceptAckSize * e.src + t) = e.byte t := by
    intro t ht
    rw [hcall.entry, ← hoff]
    exact h.delivery.arrived.byte e he t ht (by rw [harrived e he]; exact ht.trans (by decide))
  constructor
  · rw [hcall.next, ← hstamp]
    exact readVs_congr fun t ht => by rw [hbyte t (by omega), Nat.zero_add]
  · refine Eq.trans (readLE_shift fun t ht => ?_) hid
    rw [Nat.add_assoc _ 8 t, hbyte (8 + t) (by omega)]

/-- A call that has found more acks misses fewer. -/
theorem Call.misses_le {c' : Call} {i i' : Nat}
    (h : (∀ j < i, j < n → c.bitMap.testBit j = true) →
      ∀ j < i', j < n → c'.bitMap.testBit j = true) : c'.misses n i' ≤ c.misses n i := by
  unfold Call.misses
  split
  · exact Nat.zero_le _
  next hno =>
    rw [if_neg fun hall => hno (h hall)]

/-- Every server of the group is the leader, whom the call has counted, or has acked. -/
theorem Live.voted (h : Live n l rs w) (hposted : AllPosted w) (hacc : AllAccepted n l w)
    (hc : w.calls[id]? = some c) {i : Nat} (hi : i < n) :
    c.bitMap.testBit i = true ∨ Voted w.ackWrites i id := by
  rcases eq_or_ne i l with rfl | hil
  · have h5 := hposted id c hc
    exact .inl (h.delivery.sent.counted id c hc (by omega))
  · obtain ⟨hlen, hpc⟩ := hacc i hi hil
    refine .inr ((h.delivery.acked.voted i hi hil id ?_).resolve_left ?_)
    · rw [hlen]
      exact (List.getElem?_eq_some_iff.mp (requests_get hc)).1
    · rintro ⟨entry, heq, -⟩
      rw [hpc] at heq
      cases heq

/-- The call whose turn it is can move. -/
theorem Live.call_moves (h : Live n l rs w) (hposted : AllPosted w) (hacc : AllAccepted n l w)
    (harrived : AllArrived w) (hc : w.calls[id]? = some c)
    (hturn : (w.nodes l).committed.reqId.toNat = id) (hdone : c.pc ≠ .done) :
    ∃ w' c', CallStep w id c true w' ∧ w'.calls = w.calls.set id c' ∧ 5 ≤ c'.pc.stage
      ∧ c'.left n < c.left n := by
  have hstage := hposted id c hc
  have hcall := h.inv.call id c hc
  obtain rfl : l = c.owner := hcall.owner.symm
  have hne : w.calls ≠ [] := fun hnil => by rw [hnil] at hc; cases hc
  have hn : n ≤ maxServerCount := by
    rw [← h.size]
    exact (h.inv.group hne).2
  cases hpc : c.pc with
  | sample | fill | store | mark | post | failed =>
      rw [hpc] at hstage
      exact absurd hstage (by simp [CallPc.stage])
  | done => exact absurd hpc hdone
  | recheck i =>
      by_cases hi : i < maxServerCount
      · by_cases hvs : readVs (w.nodes c.owner).log.entries (c.entry + acceptAckSize * i) = c.next
        · refine ⟨_, _, .hit hpc hi hvs, rfl, Nat.le_refl 5, ?_⟩
          unfold Call.left
          rw [hpc]
          exact Nat.lt_succ_self _
        · refine ⟨_, _, .miss hpc hi hvs, rfl, Nat.le_refl 5, ?_⟩
          -- a slot without the stamp is not that of a server to be counted
          have hless : Call.misses n { c with pc := .recheck (i + 1) } (i + 1) ≤ c.misses n i := by
            refine Call.misses_le fun hall j hj hjn => ?_
            rcases Nat.lt_or_eq_of_le (Nat.lt_succ_iff.mp hj) with hlt | rfl
            · exact hall j hlt hjn
            · exact (h.voted hposted hacc hc hjn).resolve_right fun hv =>
                hvs (h.slot harrived hc hv).1
          unfold Call.left
          rw [hpc]
          dsimp only
          omega
      · refine ⟨_, _, .scanned hpc hi, rfl, Nat.le_refl 5, ?_⟩
        have hless : Call.misses n { c with pc := .quorum } maxServerCount ≤ c.misses n i :=
          Call.misses_le fun hall j hj hjn => hall j (by omega) hjn
        unfold Call.left
        rw [hpc]
        dsimp only
        omega
  | ackId i =>
      obtain ⟨hi, hv⟩ := (h.replicating.ballots.call id c hc).slot i hpc
      have hid := (h.slot harrived hc hv).2
      refine ⟨_, _, .ackId hpc (by unfold maxServerCount at hi; omega) hid, rfl, Nat.le_refl 5, ?_⟩
      have hless : Call.misses n { c with bitMap := c.bitMap ||| 1 <<< i, pc := .recheck (i + 1) }
          (i + 1) ≤ c.misses n i := by
        refine Call.misses_le fun hall j hj hjn => ?_
        show (c.bitMap ||| 1 <<< i).testBit j = true
        rw [Nat.testBit_or, Nat.one_shiftLeft, Nat.testBit_two_pow, Bool.or_eq_true,
          decide_eq_true_eq]
        rcases Nat.lt_or_eq_of_le (Nat.lt_succ_iff.mp hj) with hlt | heq
        · exact .inl (hall j hlt hjn)
        · exact .inr heq.symm
      unfold Call.left
      rw [hpc]
      dsimp only
      omega
  | quorum =>
      cases hq : reachedQuorum c.bitMap w.size with
      | true =>
          refine ⟨_, _, .quorum hpc hq, rfl, Nat.le_succ 5, ?_⟩
          unfold Call.left
          rw [hpc]
          exact Nat.lt_of_lt_of_le (by decide : 3 < 5) (Nat.le_add_left 5 _)
      | false =>
          refine ⟨_, _, .again hpc hq, rfl, Nat.le_refl 5, ?_⟩
          have hmiss : c.misses n maxServerCount = 60 := by
            refine if_neg fun hall => ?_
            rw [h.size, reachedQuorum_of_all (Nat.zero_lt_of_lt h.leader)
              (hn.trans (by decide)) fun j hj => hall j (by omega) hj] at hq
            cases hq
          have hzero : Call.misses n { c with pc := .recheck 0 } 0 = 0 :=
            if_pos fun j hj => absurd hj (Nat.not_lt_zero j)
          unfold Call.left
          rw [hpc]
          dsimp only
          rw [hmiss, hzero]
          decide
  | spin =>
      refine ⟨_, _, .leaveSpin hpc ?_, rfl, Nat.le_add_right 5 2, ?_⟩
      · have hbytes := (h.inv.leader rfl).mem id c hc
        have hvs := hbytes.msgVs (by rw [hpc]; decide)
        rw [readVs_entryAt, show startOf (w.calls.map Call.req) id = c.entry from hcall.entry.symm]
          at hvs
        have hlt := h.call_lt hc
        have hshort := h.replicating.short
        rw [h.requests] at hshort
        rw [hvs, gt_iff_lt, UInt32.lt_iff_toNat_lt, UInt32.toNat_add, hturn,
          stampOf_reqId (by omega)]
        show ¬ (id + 1) % 2 ^ 32 < id + 1
        rw [Nat.mod_eq_of_lt (by omega)]
        exact Nat.lt_irrefl _
      · unfold Call.left
        rw [hpc]
        exact Nat.lt_succ_self 2
  | incRead =>
      refine ⟨_, _, .incRead hpc, rfl, Nat.le_add_right 5 2, ?_⟩
      unfold Call.left
      rw [hpc]
      exact Nat.lt_succ_self 1
  | incWrite v =>
      refine ⟨_, _, .incWrite hpc, rfl, Nat.le_add_right 5 3, ?_⟩
      unfold Call.left
      rw [hpc]
      exact Nat.lt_succ_self 0

/-- A call past its post loop posts nothing more, and neither accepts nor acks. -/
theorem CallStep.settled {w' : World} (h : CallStep w id c true w') :
    (∀ i, (w'.nodes i).accepted = (w.nodes i).accepted ∧ (w'.nodes i).pc = (w.nodes i).pc)
      ∧ w'.ackWrites = w.ackWrites := by
  refine ⟨fun i => ⟨h.field Node.accepted (fun _ _ => rfl) (fun _ _ => rfl) i,
    h.field Node.pc (fun _ _ => rfl) (fun _ _ => rfl) i⟩, ?_⟩
  cases h with
  | _ => rfl

/-- The calls not returned yet begin with the one whose turn it is. -/
theorem Live.turn (h : Live n l rs w) (hc : w.calls[id]? = some c) (hdone : c.pc ≠ .done) :
    ∃ d, w.calls[(w.nodes l).committed.reqId.toNat]? = some d ∧ d.pc ≠ .done := by
  have hordered := (h.inv.leader rfl).ordered
  have hle : (w.nodes l).committed.reqId.toNat ≤ id := by
    by_contra hlt
    exact hdone (CallPc.phase_finished.mp
      ((hordered.finished id _ (phases_get hc)).mpr (by omega)))
  have hlt : id < w.calls.length := (List.getElem?_eq_some_iff.mp hc).1
  have hd := List.getElem?_eq_getElem (l := w.calls) (Nat.lt_of_le_of_lt hle hlt)
  refine ⟨_, hd, fun hpc => ?_⟩
  exact Nat.lt_irrefl _ ((hordered.finished _ _ (phases_get hd)).mp (CallPc.phase_finished.mpr hpc))

/-- Every call can be brought to return. -/
theorem Live.return (h : Live n l rs w) (hposted : AllPosted w) (hacc : AllAccepted n l w)
    (harrived : AllArrived w) :
    ∃ w', Reaches step (Settling n l) w w' ∧ Live n l rs w' ∧ AllAccepted n l w'
      ∧ ∀ c ∈ w'.calls, c.pc = .done := by
  obtain ⟨w', hrun, ⟨hlive, -, hacc', -⟩, hall⟩ := exists_reaches_of_parts step
    (Settling n l) (I := fun w => Live n l rs w ∧ AllPosted w ∧ AllAccepted n l w ∧ AllArrived w)
    (P := fun id w => ∀ c, w.calls[id]? = some c → c.pc = .done)
    (List.range rs.length) (fun id w => w.ofCall id (Call.left n))
    (fun s ⟨hs, hp, ha, harr⟩ x _ hP => by
      push Not at hP
      obtain ⟨c, hx, hdone⟩ := hP
      -- the call to move is not this one but the first of those
      obtain ⟨d, hd, hdd⟩ := hs.turn hx hdone
      obtain ⟨s', d', hstep, hcalls, h5, hless⟩ := hs.call_moves hp ha harr hd rfl hdd
      obtain ⟨hok, hexec, hs'⟩ := hs.callStep hd hstep fun i hpc =>
        (hs.slot harr hd ((hs.replicating.ballots.call _ d hd).slot i hpc).2).2
      obtain ⟨hnodes, hacks⟩ := hstep.settled
      refine ⟨_, s', hok, hexec, ⟨hs', fun id e he => ?_, fun i hi hil => ?_, ?_⟩,
        _, List.mem_range.mpr (hs.call_lt hd), advances_of_set hd hcalls hless⟩
      · rw [hcalls] at he
        rcases get_set he with ⟨-, rfl⟩ | ⟨-, hold⟩
        · exact h5
        · exact hp id e hold
      · rw [(hnodes i).1, (hnodes i).2, hstep.requests hd]
        exact ha i hi hil
      · unfold AllArrived
        rw [hacks]
        exact harr) ⟨h, hposted, hacc, harrived⟩
  refine ⟨w', hrun, hlive, hacc', fun c hc => ?_⟩
  obtain ⟨id, hid⟩ := List.mem_iff_getElem?.mp hc
  exact hall id (List.mem_range.mpr (hlive.call_lt hid)) c hid

end Return

/-! ## §7. The result. -/

section Completion
variable {n l : Nat} {w : World}

/-- With all calls returned, the commit point is past the last request. -/
theorem Live.committed {rs : List Request} (h : Live n l rs w) (hdone : ∀ c ∈ w.calls, c.pc = .done) :
    (w.nodes l).committed.reqId.toNat = rs.length := by
  have hordered := (h.inv.leader rfl).ordered
  have hle := hordered.le
  have hlen : (phases w.calls).length = rs.length := by
    rw [← h.length]
    exact List.length_map ..
  by_contra hne
  have hd := List.getElem?_eq_getElem (l := w.calls) (i := (w.nodes l).committed.reqId.toNat)
    (by rw [h.length]; omega)
  have hphase := CallPc.phase_finished.mpr (hdone _ (List.mem_of_getElem? hd))
  exact Nat.lt_irrefl _ ((hordered.finished _ _ (phases_get hd)).mp hphase)

/-- The parts of the schedule, one after the other. -/
theorem Live.complete (h : Live n l rs w) :
    ∃ w', Reaches step (Settling n l) w w' ∧ Live n l rs w' ∧ AllAccepted n l w'
      ∧ ∀ c ∈ w'.calls, c.pc = .done := by
  obtain ⟨w₁, hrun₁, hlive₁, hposted₁⟩ := h.post
  obtain ⟨w₂, hrun₂, hlive₂, hposted₂, hwhole⟩ := hlive₁.deliverEntries hposted₁
  obtain ⟨w₃, hrun₃, hlive₃, hposted₃, hacc₃⟩ := hlive₂.followers hposted₂ hwhole
  obtain ⟨w₄, hrun₄, hlive₄, hposted₄, hacc₄, harrived⟩ := hlive₃.deliverAcks hposted₃ hacc₃
  obtain ⟨w₅, hrun₅, hlive₅, hacc₅, hdone⟩ := hlive₄.return hposted₄ hacc₄ harrived
  exact ⟨w₅, (((hrun₁.trans hrun₂).trans hrun₃).trans hrun₄).trans hrun₅, hlive₅, hacc₅, hdone⟩

end Completion

end RdmaPaxos
