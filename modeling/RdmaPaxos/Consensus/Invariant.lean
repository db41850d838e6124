/-
  RdmaPaxos.Consensus.Invariant
  ─────────────────────────────
  **THE INVARIANT OF ONE LAP OF ONE LEADER.**

  The runs it is about: every request is submitted by process `p` of node `l`
  (`p` is the region of the log it was started with), and no log wraps.  Nodes
  may come, go, rejoin and reconnect at any moment.  Then the requests get the
  stamps (1,1), (1,2), … in the order of their entries, and

    • `CallOk`, `LeaderInv` — the leader's side: where each entry lies, what has
      been written into it, and the ticket order of the commits;
    • `WriteOk`, `AckOk` — what is in flight between the nodes;
    • `ReplicaInv` — a follower has accepted the submitted entries up to some point;
    • `AppliedInv` — it has applied them up to some earlier one, in order.

  A follower that reads the size of an entry while it arrives may take a part of the
  payload for all of it.  `T` says of which requests this is known not to happen: of all,
  on runs where it never reads a size in part (`SizeArrived`), and on every run of those
  whose size is one byte (`Request.Short`).  What is said of all others leaves the payload
  out.

  §4 shows how the invariant is kept when one component changes, §5 what the
  steps of the threads never change.
-/
import RdmaPaxos.Consensus.Layout
import RdmaPaxos.Consensus.Steps
import RdmaPaxos.Lib.Ticket
import RdmaPaxos.Lib.Run

namespace RdmaPaxos

open RdmaPaxos.ByteMemory RdmaPaxos.Ticket

/-! ## §1. Where a call is. -/

/-- How far a call is (see `EntryBytes` for 1 to 4; from 3 on the record is
stored, from 5 on all writes are posted, from 6 on the quorum is reached). -/
def CallPc.stage : CallPc → Nat
  | .sample => 0
  | .fill => 1
  | .store => 2
  | .failed => 2
  | .mark => 3
  | .post _ => 4
  | .recheck _ => 5
  | .ackId _ => 5
  | .quorum => 5
  | .spin => 6
  | .incRead => 7
  | .incWrite _ => 7
  | .done => 8

/-- The call as a holder of a ticket for `highest_committed_vs`. -/
def CallPc.phase : CallPc → Phase
  | .incRead => .entered
  | .incWrite v => .holding v.toNat
  | .done => .finished
  | _ => .waiting

/-- Only a call that has returned after its increment is finished. -/
theorem CallPc.phase_finished {pc : CallPc} : pc.phase = .finished ↔ pc = .done := by
  cases pc with
  | done => exact ⟨fun _ => rfl, fun _ => rfl⟩
  | _ => exact ⟨nofun, nofun⟩

/-- The call is past server `i` in its post loop. -/
def CallPc.posted (i : Nat) : CallPc → Bool
  | .post j => decide (i < j)
  | pc => decide (5 ≤ pc.stage)

/-- The phases of all calls. -/
def phases (calls : List Call) : List Phase := calls.map fun c => c.pc.phase

/-- How many calls have performed their increment. -/
def doneCount (calls : List Call) : Nat := (phases calls).count .finished

/-! ## §2. The parts of the invariant. -/

/-- The stamps and records of the submitted requests. -/
def submitted (rs : List Request) : List (ViewStamp × Record) :=
  rs.mapIdx fun id q => (stampOf id, q.record (stampOf id))

/-- The fixed part of call `id`. -/
structure CallOk (l p : Nat) (rs : List Request) (id : Nat) (c : Call) : Prop where
  owner : c.owner = l
  region : c.region = p
  next : c.next = stampOf id
  entry : c.entry = startOf rs id
  offset : c.offset = offsetofEntries + startOf rs id
  inside : startOf rs id + c.req.entryLen ≤ logSize

/-- The leader's process. -/
structure LeaderInv (l : Nat) (calls : List Call) (nd : Node) : Prop where
  pos : LogAt (calls.map Call.req) nd.log calls.length
  seen : nd.seen = ⟨1, UInt32.ofNat calls.length⟩
  pc : nd.pc = .poll
  accepted : nd.accepted = []
  view : nd.committed.viewId = 1
  ordered : Ordered (phases calls) nd.committed.reqId.toNat
  mem : ∀ id c, calls[id]? = some c → EntryBytes (doneCount calls) c.pc.stage l id c.req
    (entryAt nd.log.entries (startOf (calls.map Call.req) id))
  beyond : ∀ x, startOf (calls.map Call.req) calls.length ≤ x → nd.log.entries x = 0

/-- The entry writes addressed to server `i`. -/
def World.writesTo (w : World) (i : Nat) : Nat → Option EntryWrite := fun id => w.entryWrites id i

/-- A follower's program counter against the entries it has accepted. -/
def ReplicaPcOk (T : Request → Prop) (rs : List Request) (writes : Nat → Option EntryWrite)
    (nd : Node) : Prop :=
  match nd.pc with
  | .poll => True
  | .measure entry => entry = startOf rs nd.accepted.length ∧ nd.log.endOff = entry
      ∧ SizeBegun rs writes nd.region nd.accepted.length
  | .marker entry len => entry = startOf rs nd.accepted.length ∧ nd.log.endOff = entry
      ∧ Measured T rs writes nd.region nd.accepted.length len
  | .accept entry => entry = startOf rs nd.accepted.length ∧ nd.log.endOff = entry
      ∧ MarkerSeen T rs writes nd.region nd.accepted.length
  | .ack entry | .commit entry | .apply entry _ _ =>
      ∃ k, nd.accepted.length = k + 1 ∧ entry = startOf rs k ∧ MarkerSeen T rs writes nd.region k

/-- The entries a follower has accepted: entry `t` is that of request `t`. -/
structure AcceptedOk (T : Request → Prop) (rs : List Request) (acc : List (ViewStamp × Record)) :
    Prop where
  le : acc.length ≤ rs.length
  get : ∀ (t : Nat) (v : ViewStamp × Record), acc[t]? = some v →
    ∃ q, rs[t]? = some q ∧ v.1 = stampOf t ∧ Reads T q (stampOf t) v.2

/-- A process that is not the leader's, on node `i`. -/
structure ReplicaInv (T : Request → Prop) (rs : List Request) (writes : Nat → Option EntryWrite)
    (i : Nat) (nd : Node) : Prop where
  pos : LogAt rs nd.log nd.accepted.length
  mem : ReplicaMem rs writes nd.region nd.log.entries
  accepted : AcceptedOk T rs nd.accepted
  pc : ReplicaPcOk T rs writes nd
  reply : ∀ entry, nd.pc = .ack entry →
    readVs nd.log.entries (entry + acceptAckSize * i) = stampOf (nd.accepted.length - 1)
      ∧ readLE nd.log.entries (entry + acceptAckSize * i + 8) 4 = i

/-- The commit point of a follower against what it has applied; while it is
applying, the entry it works on says how far. -/
def CommitOk (B : Nat) (writes : Nat → Option EntryWrite) (nd : Node) : Prop :=
  match nd.pc with
  | .apply _ index last => ∃ k e x, nd.accepted.length = k + 1 ∧ writes k = some e
      ∧ readVs e.byte offCanbeExed = ⟨1, UInt32.ofNat x⟩ ∧ x ≤ k ∧ x ≤ B ∧ last = viewBase + x
      ∧ index = viewBase + (nd.applied.length + 1) ∧ nd.applied.length ≤ x
  | _ => nd.committed.reqId.toNat = nd.applied.length

/-- What a follower has applied when `B` requests are committed. -/
structure AppliedInv (T : Request → Prop) (B : Nat) (rs : List Request)
    (writes : Nat → Option EntryWrite) (nd : Node) : Prop where
  view : nd.committed.viewId = 1
  le : nd.applied.length ≤ rs.length
  bound : nd.applied.length ≤ B
  index : ∀ (t : Nat) (v : Nat × Option Buf), nd.applied[t]? = some v → v.1 = vstol (stampOf t)
  record : ∀ (t : Nat) (v : Nat × Option Buf) (b : Buf), nd.applied[t]? = some v → v.2 = some b →
    ∃ q, rs[t]? = some q ∧ Reads T q (stampOf t) (Record.decode b)
  commit : CommitOk B writes nd

/-- The entry write of call `id` to server `i`. -/
structure WriteOk (l : Nat) (w : World) (id i : Nat) (e : EntryWrite) : Prop where
  server : i ≠ l ∧ i < w.size
  region : e.region ≤ (w.nodes i).region
  posted : ∃ c, w.calls[id]? = some c ∧ c.pc.posted i = true
  bytes : WriteBytes (doneCount w.calls) w.requests l id e

/-- An ack on its way to the leader. -/
structure AckOk (l : Nat) (rs : List Request) (e : AckWrite) : Prop where
  dst : e.dst = l
  src : e.src < maxServerCount
  slot : ∃ k q, rs[k]? = some q ∧ e.off = startOf rs k + acceptAckSize * e.src
    ∧ readVs e.byte 0 = stampOf k ∧ readLE e.byte 8 4 = e.src
  visible : e.visible ≤ acceptAckSize

/-! ## §3. The invariant. -/

/-- Everything but the leader's own process. -/
structure GroupInv (T : Request → Prop) (l p : Nat) (w : World) : Prop where
  members : ∀ i, (w.nodes i).up = true → i < w.size
  connected : ∀ i j r, (w.nodes i).conn j = some r → r ≤ (w.nodes j).region
  group : w.calls ≠ [] → l < w.size ∧ w.size ≤ maxServerCount
  call : ∀ id c, w.calls[id]? = some c → CallOk l p w.requests id c
  born : (w.nodes l).region < p →
    w.calls = [] ∧ (w.nodes l).seen = ⟨1, 0⟩ ∧ (w.nodes l).committed = ⟨1, 0⟩
  write : ∀ id i e, w.entryWrites id i = some e → WriteOk l w id i e
  ack : ∀ e ∈ w.ackWrites, AckOk l w.requests e
  record : ∀ i key b, w.db i key = some b →
    ∃ id q, w.requests[id]? = some q ∧ key = vstol (stampOf id)
      ∧ Reads T q (stampOf id) (Record.decode b)
  stored : ∀ id c, w.calls[id]? = some c → 3 ≤ c.pc.stage →
    ∃ b, w.db l (vstol (stampOf id)) = some b
  replica : ∀ i, ¬ (i = l ∧ (w.nodes i).region = p) →
    ReplicaInv T w.requests (w.writesTo i) i (w.nodes i)
  applied : ∀ i, i ≠ l → AppliedInv T (doneCount w.calls) w.requests (w.writesTo i) (w.nodes i)

/-- The invariant, where the payloads of the requests in `T` are read whole. -/
structure Inv (T : Request → Prop) (l p : Nat) (w : World) : Prop extends GroupInv T l p w where
  leader : (w.nodes l).region = p → LeaderInv l w.calls (w.nodes l)

/-- The runs in which process `p` of node `l` is the only one to submit, and no
log wraps. -/
def SoleLeader (l p : Nat) (w : World) : Action → Prop
  | .submit i _ => i = l ∧ (w.nodes l).region = p ∧ NotWrapping (w.nodes l).log
  | .replica i _ _ =>
      (w.nodes i).pc = .poll → (w.nodes i).leaderId ≠ i → NotWrapping (w.nodes i).log
  | _ => True

instance (l p : Nat) (w : World) : (a : Action) → Decidable (SoleLeader l p w a)
  | .submit .. => inferInstanceAs (Decidable (_ ∧ _ ∧ _))
  | .replica .. => inferInstanceAs (Decidable (_ → _ → _))
  | .start .. | .crash .. | .joinReply .. | .connect .. | .destroy .. | .relaunch ..
  | .call .. | .deliverEntry .. | .deliverAck .. => isTrue trivial

/-- The runs in which a follower takes the length of an entry (line 275) from a size all of
whose bytes have arrived. -/
def SizeArrived (w : World) : Action → Prop
  | .replica i _ _ => ∀ id < w.calls.length, ∀ e ∈ w.entryWrites id i,
      (w.nodes i).pc = .measure e.off → (w.nodes i).region = e.region → offDataSize + 8 ≤ e.visible
  | _ => True

instance (w : World) : (a : Action) → Decidable (SizeArrived w a)
  | .replica .. => inferInstanceAs (Decidable (∀ _, _))
  | .start .. | .crash .. | .joinReply .. | .connect .. | .destroy .. | .relaunch .. | .submit ..
  | .call .. | .deliverEntry .. | .deliverAck .. => isTrue trivial

/-- Every other step of the loop is one of these runs. -/
theorem sizeArrived_of_ne {w : World} {i hash : Nat} {stored : Bool}
    (h : ∀ entry, (w.nodes i).pc ≠ .measure entry) : SizeArrived w (.replica i stored hash) :=
  fun _ _ e _ hpc => absurd hpc (h e.off)

/-- The steps of `ok` in which no size is read in part. -/
def WholeSizes (ok : World → Action → Prop) (w : World) (a : Action) : Prop := ok w a ∧ SizeArrived w a

instance (ok : World → Action → Prop) [∀ w a, Decidable (ok w a)] (w : World) (a : Action) :
    Decidable (WholeSizes ok w a) := inferInstanceAs (Decidable (_ ∧ _))

/-! ## §4. Changing one component. -/

section Setters
variable (w : World) (i : Nat) (nd : Node)

@[simp] theorem setNode_size : (w.setNode i nd).size = w.size := rfl
@[simp] theorem setNode_calls : (w.setNode i nd).calls = w.calls := rfl
@[simp] theorem setNode_requests : (w.setNode i nd).requests = w.requests := rfl
@[simp] theorem setNode_writesTo : (w.setNode i nd).writesTo = w.writesTo := rfl

theorem setNode_nodes_self : (w.setNode i nd).nodes i = nd := Function.update_self ..

theorem setNode_nodes_ne {j : Nat} (h : j ≠ i) : (w.setNode i nd).nodes j = w.nodes j :=
  Function.update_of_ne h ..

/-- The leader's process after a submission. -/
theorem submit_nodes_self (q : Request) : ({ w.setNode i ((w.nodes i).alloc q) with
    calls := w.calls ++ [(w.nodes i).newCall i q] } : World).nodes i = (w.nodes i).alloc q :=
  Function.update_self ..

theorem setEntries_region (m : Mem) : (nd.setEntries m).region = nd.region := rfl

/-- Writing back what is there. -/
theorem setNode_self : w.setNode i (w.nodes i) = w := by
  unfold World.setNode
  rw [Function.update_eq_self]

variable {w i nd} in
/-- A field of one process, after some process changed. -/
theorem setNode_field {α : Type*} {l : Nat} (f : Node → α)
    (h : i = l → f nd = f (w.nodes l)) : f ((w.setNode i nd).nodes l) = f (w.nodes l) := by
  rcases eq_or_ne l i with rfl | hne
  · rw [setNode_nodes_self]
    exact h rfl
  · rw [setNode_nodes_ne _ _ _ hne]

/-- What `store_record` leaves under a key. -/
theorem storeRecord_db (key : Nat) (b : Buf) (j k : Nat) :
    (w.storeRecord i key b).db j k = if j = i ∧ k = key then some b else w.db j k := by
  show Function.update w.db i (Function.update (w.db i) key (some b)) j k = _
  rcases eq_or_ne j i with rfl | hj
  · rcases eq_or_ne k key with rfl | hk
    · rw [Function.update_self, Function.update_self, if_pos ⟨rfl, rfl⟩]
    · rw [Function.update_self, Function.update_of_ne hk, if_neg fun h => hk h.2]
  · rw [Function.update_of_ne hj, if_neg fun h => hj h.1]

end Setters

/-- A field that a replaced element keeps. -/
theorem map_set_same {α β : Type*} {xs : List α} {id : Nat} {x y : α} {f : α → β}
    (h : xs[id]? = some x) (hf : f y = f x) : (xs.set id y).map f = xs.map f := by
  apply List.ext_getElem?
  intro j
  rw [List.getElem?_map, List.getElem?_map, List.getElem?_set]
  split
  next heq =>
    subst heq
    rw [if_pos (List.getElem?_eq_some_iff.mp h).1, h]
    exact congrArg some hf
  next => rfl

theorem length_requests (w : World) : w.requests.length = w.calls.length := List.length_map ..

/-- The request of a call. -/
theorem requests_get {w : World} {id : Nat} {c : Call} (h : w.calls[id]? = some c) :
    w.requests[id]? = some c.req := by
  unfold World.requests
  rw [List.getElem?_map, h]
  rfl

/-- The call of a request. -/
theorem calls_get {w : World} {id : Nat} {q : Request} (h : w.requests[id]? = some q) :
    ∃ c, w.calls[id]? = some c ∧ c.req = q := by
  unfold World.requests at h
  rw [List.getElem?_map, Option.map_eq_some_iff] at h
  exact h

/-- A new call's phase comes last. -/
theorem phases_append (calls : List Call) (c : Call) :
    phases (calls ++ [c]) = phases calls ++ [c.pc.phase] := by
  unfold phases
  rw [List.map_append]
  rfl

/-- A call that goes on changes its own phase only. -/
theorem phases_set (calls : List Call) (id : Nat) (c : Call) :
    phases (calls.set id c) = (phases calls).set id c.pc.phase :=
  List.map_set ..

theorem phases_get {calls : List Call} {id : Nat} {c : Call} (h : calls[id]? = some c) :
    (phases calls)[id]? = some c.pc.phase := by
  unfold phases
  rw [List.getElem?_map, h]
  rfl

/-- A new call has not returned. -/
theorem doneCount_append (calls : List Call) {c : Call} (hpc : c.pc = .sample) :
    doneCount (calls ++ [c]) = doneCount calls := by
  unfold doneCount
  rw [phases_append, hpc, List.count_append]
  rfl

/-- A call that goes on takes nothing from the count. -/
theorem doneCount_set_le {calls : List Call} {id : Nat} {c : Call} (hc : calls[id]? = some c)
    (hpc : c.pc ≠ .done) (c' : Call) : doneCount calls ≤ doneCount (calls.set id c') := by
  unfold doneCount
  rw [phases_set]
  exact count_le_count_set (phases_get hc) (fun h => hpc (CallPc.phase_finished.mp h)) _

/-- The stamp and the record of request `k`. -/
theorem submitted_get {rs : List Request} {k : Nat} {q : Request} (h : rs[k]? = some q) :
    (submitted rs)[k]? = some (stampOf k, q.record (stampOf k)) := by
  unfold submitted
  rw [List.getElem?_mapIdx, h]
  rfl

/-- Where every payload is read whole, the accepted entries are the first submitted ones. -/
theorem AcceptedOk.prefix_submitted {rs : List Request} {acc : List (ViewStamp × Record)}
    (h : AcceptedOk Request.Any rs acc) : acc <+: submitted rs := by
  rw [List.prefix_iff_getElem?]
  intro t ht
  obtain ⟨q, hq, hvs, hread⟩ := h.get t _ (List.getElem?_eq_getElem ht)
  rw [submitted_get hq]
  exact congrArg some (Prod.ext hvs.symm (hread.whole trivial).symm)

/-- Nothing accepted. -/
theorem AcceptedOk.nil (T : Request → Prop) (rs : List Request) : AcceptedOk T rs [] :=
  ⟨Nat.zero_le _, fun _ _ h => by cases h⟩

/-- One more request is submitted. -/
theorem AcceptedOk.append {T : Request → Prop} {rs : List Request} {acc : List (ViewStamp × Record)}
    (h : AcceptedOk T rs acc) (q : Request) : AcceptedOk T (rs ++ [q]) acc := by
  refine ⟨?_, fun t v ht => ?_⟩
  · have := h.le
    rw [List.length_append]
    omega
  · obtain ⟨r, hr, hrest⟩ := h.get t v ht
    have hlt : t < rs.length := (List.getElem?_eq_some_iff.mp hr).1
    exact ⟨r, by rw [List.getElem?_append_left hlt]; exact hr, hrest⟩

/-- A follower has accepted no more than was submitted. -/
theorem ReplicaInv.accepted_le {T : Request → Prop} {rs : List Request}
    {writes : Nat → Option EntryWrite} {i : Nat} {nd : Node} (h : ReplicaInv T rs writes i nd) :
    nd.accepted.length ≤ rs.length := h.accepted.le

section Replica
variable {T : Request → Prop} {rs : List Request} {writes writes' : Nat → Option EntryWrite}
variable {nd : Node} {l i B : Nat}

/-- More bytes arrive. -/
theorem ReplicaPcOk.extend (h : ReplicaPcOk T rs writes nd) (hext : Extends writes writes') :
    ReplicaPcOk T rs writes' nd := by
  unfold ReplicaPcOk at h ⊢
  split at h
  · trivial
  · exact ⟨h.1, h.2.1, h.2.2.extend hext⟩
  · exact ⟨h.1, h.2.1, h.2.2.extend hext⟩
  · exact ⟨h.1, h.2.1, h.2.2.extend hext⟩
  all_goals
    obtain ⟨k, hk, hentry, hseen⟩ := h
    exact ⟨k, hk, hentry, hseen.extend hext⟩

/-- One more request is submitted. -/
theorem ReplicaPcOk.append (h : ReplicaPcOk T rs writes nd) (hle : nd.accepted.length ≤ rs.length)
    (q : Request) : ReplicaPcOk T (rs ++ [q]) writes nd := by
  unfold ReplicaPcOk at h ⊢
  split at h
  · trivial
  · exact ⟨by rw [startOf_append hle]; exact h.1, h.2.1, h.2.2.append q⟩
  · exact ⟨by rw [startOf_append hle]; exact h.1, h.2.1, h.2.2.append q⟩
  · exact ⟨by rw [startOf_append hle]; exact h.1, h.2.1, h.2.2.append q⟩
  all_goals
    obtain ⟨k, hk, hentry, hseen⟩ := h
    exact ⟨k, hk, by rw [startOf_append (by omega)]; exact hentry, hseen.append q⟩

/-- Outside the apply loop the commit point is the number of applied records. -/
theorem commitOk_iff (h : ∀ entry index last, nd.pc ≠ .apply entry index last) :
    CommitOk B writes nd ↔ nd.committed.reqId.toNat = nd.applied.length := by
  unfold CommitOk
  split
  next heq => exact absurd heq (h _ _ _)
  next => exact Iff.rfl

/-- More bytes arrive; the commit point in an entry is there already. -/
theorem CommitOk.extend (h : CommitOk B writes nd) (hext : Extends writes writes') :
    CommitOk B writes' nd := by
  unfold CommitOk at h ⊢
  split at h
  · obtain ⟨k, e, x, hk, he, hx, hrest⟩ := h
    obtain ⟨e', he', -, -, hbyte, -⟩ := hext k e he
    exact ⟨k, e', x, hk, he', by rw [hbyte]; exact hx, hrest⟩
  · exact h

/-- More bytes arrive. -/
theorem AppliedInv.extend (h : AppliedInv T B rs writes nd) (hext : Extends writes writes') :
    AppliedInv T B rs writes' nd :=
  ⟨h.view, h.le, h.bound, h.index, h.record, h.commit.extend hext⟩

/-- More requests are committed. -/
theorem AppliedInv.raise (h : AppliedInv T B rs writes nd) {B' : Nat} (hB : B ≤ B') :
    AppliedInv T B' rs writes nd := by
  refine ⟨h.view, h.le, h.bound.trans hB, h.index, h.record, ?_⟩
  have hcommit := h.commit
  unfold CommitOk at hcommit ⊢
  split at hcommit
  · obtain ⟨k, e, x, hk, he, hx, hxk, hxB, hrest⟩ := hcommit
    exact ⟨k, e, x, hk, he, hx, hxk, hxB.trans hB, hrest⟩
  · exact hcommit

/-- One more request is submitted, and the follower has nothing of it yet. -/
theorem ReplicaInv.append (h : ReplicaInv T rs writes i nd)
    (hw : ∀ k e, writes k = some e → WriteBytes B rs l k e) (q : Request) :
    ReplicaInv T (rs ++ [q]) writes i nd := by
  have hle := h.accepted_le
  exact ⟨h.pos.append hle q, h.mem.append hw q, h.accepted.append q, h.pc.append hle q, h.reply⟩

/-- One more request is submitted. -/
theorem AppliedInv.append (h : AppliedInv T B rs writes nd) (q : Request) :
    AppliedInv T B (rs ++ [q]) writes nd := by
  refine ⟨h.view, ?_, h.bound, h.index, fun t v b ht hb => ?_, h.commit⟩
  · have := h.le
    rw [List.length_append]
    omega
  · obtain ⟨r, hr, hdec⟩ := h.record t v b ht hb
    have hlt : t < rs.length := (List.getElem?_eq_some_iff.mp hr).1
    exact ⟨r, by rw [List.getElem?_append_left hlt]; exact hr, hdec⟩

end Replica

section Group
variable {T : Request → Prop} {l p : Nat} {w : World}

/-- One process changes. -/
theorem GroupInv.setNode (h : GroupInv T l p w) {i : Nat} {nd : Node}
    (hup : nd.up = true → i < w.size)
    (hregion : (w.nodes i).region ≤ nd.region)
    (hconn : ∀ j r, nd.conn j = some r → r ≤ (w.nodes j).region)
    (hborn : i = l → nd.region < p → nd.seen = ⟨1, 0⟩ ∧ nd.committed = ⟨1, 0⟩)
    (hreplica : ¬ (i = l ∧ nd.region = p) → ReplicaInv T w.requests (w.writesTo i) i nd)
    (happlied : i ≠ l → AppliedInv T (doneCount w.calls) w.requests (w.writesTo i) nd) :
    GroupInv T l p (w.setNode i nd) := by
  -- a node never goes back to an earlier region
  have hregions : ∀ j, (w.nodes j).region ≤ ((w.setNode i nd).nodes j).region := by
    intro j
    rcases eq_or_ne j i with rfl | hne
    · rw [setNode_nodes_self]
      exact hregion
    · rw [setNode_nodes_ne _ _ _ hne]
  refine ⟨fun j => ?_, fun j k r hr => ?_, h.group, h.call, fun hlt => ?_, fun id j e he => ?_,
    h.ack, h.record, h.stored, fun j => ?_, fun j hj => ?_⟩
  · rcases eq_or_ne j i with rfl | hne
    · rw [setNode_nodes_self]
      exact hup
    · rw [setNode_nodes_ne _ _ _ hne]
      exact h.members j
  · refine Nat.le_trans ?_ (hregions k)
    rcases eq_or_ne j i with rfl | hne
    · rw [setNode_nodes_self] at hr
      exact hconn k r hr
    · rw [setNode_nodes_ne _ _ _ hne] at hr
      exact h.connected j k r hr
  · have hold := h.born (lt_of_le_of_lt (hregions l) hlt)
    refine ⟨hold.1, ?_⟩
    rcases eq_or_ne l i with rfl | hne
    · rw [setNode_nodes_self] at hlt ⊢
      exact hborn rfl hlt
    · rw [setNode_nodes_ne _ _ _ hne]
      exact hold.2
  · have hold := h.write id j e he
    exact ⟨hold.server, hold.region.trans (hregions j), hold.posted, hold.bytes⟩
  · rcases eq_or_ne j i with rfl | hne
    · rw [setNode_nodes_self]
      exact hreplica
    · rw [setNode_nodes_ne _ _ _ hne]
      exact h.replica j
  · rcases eq_or_ne j i with rfl | hne
    · rw [setNode_nodes_self]
      exact happlied hj
    · rw [setNode_nodes_ne _ _ _ hne]
      exact h.applied j hj

/-- The leader's process changes, inside one region. -/
theorem GroupInv.setLeader (h : GroupInv T l p w) (nd : Node) (hp : (w.nodes l).region = p)
    (hregion : nd.region = (w.nodes l).region) (hup : nd.up = (w.nodes l).up)
    (hconn : nd.conn = (w.nodes l).conn) : GroupInv T l p (w.setNode l nd) := by
  refine h.setNode ?_ hregion.ge ?_ (fun _ hlt => ?_) (fun hne => ?_) (fun hne => absurd rfl hne)
  · rw [hup]
    exact h.members l
  · rw [hconn]
    exact h.connected l
  · omega
  · exact absurd ⟨rfl, hregion.trans hp⟩ hne

/-- A call moves on. -/
theorem GroupInv.setCall (h : GroupInv T l p w) {id : Nat} {c : Call} (hc : w.calls[id]? = some c)
    {pc : CallPc} {bitMap : Nat} (hdone : c.pc ≠ .done)
    (hposted : ∀ i, c.pc.posted i = true → pc.posted i = true)
    (hstored : 3 ≤ pc.stage → ∃ b, w.db l (vstol (stampOf id)) = some b) :
    GroupInv T l p (w.setCall id { c with bitMap := bitMap, pc := pc }) := by
  have hreqs : (w.setCall id { c with bitMap := bitMap, pc := pc }).requests = w.requests :=
    map_set_same hc rfl
  -- an increment is never taken back
  have hcount : doneCount w.calls
      ≤ doneCount (w.setCall id { c with bitMap := bitMap, pc := pc }).calls :=
    doneCount_set_le hc hdone _
  have hne : w.calls ≠ [] := by
    intro hnil
    rw [hnil] at hc
    cases hc
  refine ⟨h.members, h.connected, fun _ => h.group hne, fun j d hd => ?_,
    fun hlt => absurd (h.born hlt).1 hne, fun j i e he => ?_, ?_, ?_, fun j d hd hs => ?_, ?_, ?_⟩
  · rw [hreqs]
    rcases get_set hd with ⟨rfl, rfl⟩ | ⟨-, hd⟩
    · have hold := h.call j c hc
      exact ⟨hold.owner, hold.region, hold.next, hold.entry, hold.offset, hold.inside⟩
    · exact h.call j d hd
  · have hold := h.write j i e he
    refine ⟨hold.server, hold.region, ?_, by rw [hreqs]; exact hold.bytes.raise hcount⟩
    obtain ⟨d, hd, hpost⟩ := hold.posted
    rcases eq_or_ne j id with rfl | hji
    · rw [hc] at hd
      cases hd
      exact ⟨_, List.getElem?_set_self (List.getElem?_eq_some_iff.mp hc).1, hposted i hpost⟩
    · exact ⟨d, by rw [← hd]; exact List.getElem?_set_ne (Ne.symm hji), hpost⟩
  · rw [hreqs]
    exact h.ack
  · rw [hreqs]
    exact h.record
  · rcases get_set hd with ⟨rfl, rfl⟩ | ⟨-, hd⟩
    · exact hstored hs
    · exact h.stored j d hd hs
  · rw [hreqs]
    exact h.replica
  · rw [hreqs]
    exact fun j hj => (h.applied j hj).raise hcount

/-- A record of a submitted request is stored. -/
theorem GroupInv.storeRecord (h : GroupInv T l p w) {i id key : Nat} {b : Buf} {q : Request}
    (hq : w.requests[id]? = some q) (hkey : key = vstol (stampOf id))
    (hb : Reads T q (stampOf id) (Record.decode b)) : GroupInv T l p (w.storeRecord i key b) := by
  have hdb := storeRecord_db w i key b
  refine ⟨h.members, h.connected, h.group, h.call, h.born, fun j k e he => ?_, h.ack,
    fun j k b' hb' => ?_, fun j c hc hs => ?_, h.replica, h.applied⟩
  · have hold := h.write j k e he
    exact ⟨hold.server, hold.region, hold.posted, hold.bytes⟩
  · rw [hdb] at hb'
    split at hb'
    next heq =>
      cases hb'
      exact ⟨id, q, hq, heq.2.trans hkey, hb⟩
    next => exact h.record j k b' hb'
  · rw [hdb]
    split
    next => exact ⟨b, rfl⟩
    next => exact h.stored j c hc hs

/-- A call's write to server `i` replaces the one it had. -/
theorem setEntryWrite_writesTo (w : World) (id i : Nat) (e : EntryWrite) :
    (w.setEntryWrite id i e).writesTo i = Function.update (w.writesTo i) id (some e) := by
  funext k
  show Function.update w.entryWrites id (Function.update (w.entryWrites id) i (some e)) k i = _
  rcases eq_or_ne k id with rfl | hne
  · rw [Function.update_self, Function.update_self, Function.update_self]
  · rw [Function.update_of_ne hne, Function.update_of_ne hne]
    rfl

/-- The writes to another server are as they were. -/
theorem setEntryWrite_writesTo_ne (w : World) (id : Nat) {i j : Nat} (e : EntryWrite)
    (h : j ≠ i) : (w.setEntryWrite id i e).writesTo j = w.writesTo j := by
  funext k
  show Function.update w.entryWrites id (Function.update (w.entryWrites id) i (some e)) k j = _
  rcases eq_or_ne k id with rfl | hne
  · rw [Function.update_self, Function.update_of_ne h]
    rfl
  · rw [Function.update_of_ne hne]
    rfl

/-- The writes to one server after one of them was posted or moved on. -/
theorem setEntryWrite_get {w : World} {id i k j : Nat} {e e' : EntryWrite}
    (h : (w.setEntryWrite id i e).entryWrites k j = some e') :
    (k = id ∧ j = i ∧ e' = e) ∨ w.entryWrites k j = some e' := by
  have hw : (w.setEntryWrite id i e).writesTo j k = some e' := h
  rcases eq_or_ne j i with rfl | hne
  · rw [setEntryWrite_writesTo] at hw
    rcases eq_or_ne k id with rfl | hk
    · rw [Function.update_self] at hw
      cases hw
      exact .inl ⟨rfl, rfl, rfl⟩
    · rw [Function.update_of_ne hk] at hw
      exact .inr hw
  · rw [setEntryWrite_writesTo_ne _ _ _ hne] at hw
    exact .inr hw

/-- A write to server `i` is posted or moves on, and the memory of `i` with it. -/
theorem GroupInv.setEntryWrite (h : GroupInv T l p w) {id i : Nat} {e : EntryWrite} {m : Mem}
    (he : WriteOk l w id i e)
    (hext : Extends (w.writesTo i) (Function.update (w.writesTo i) id (some e)))
    (hreplica : ReplicaInv T w.requests (Function.update (w.writesTo i) id (some e)) i
      ((w.nodes i).setEntries m)) :
    GroupInv T l p ((w.setEntryWrite id i e).setNode i ((w.nodes i).setEntries m)) := by
  have hkeep : ∀ j, ((w.setEntryWrite id i e).setNode i ((w.nodes i).setEntries m)).nodes j
      = if j = i then (w.nodes i).setEntries m else w.nodes j := by
    intro j
    rcases eq_or_ne j i with rfl | hne
    · rw [setNode_nodes_self, if_pos rfl]
    · rw [setNode_nodes_ne _ _ _ hne, if_neg hne]
      rfl
  -- nothing but the bytes of one log changes
  have hself : ∀ {α : Type} (f : Node → α), f ((w.nodes i).setEntries m) = f (w.nodes i) →
      ∀ j, f (if j = i then (w.nodes i).setEntries m else w.nodes j) = f (w.nodes j) := by
    intro α f hf j
    rcases eq_or_ne j i with rfl | hne
    · rw [if_pos rfl, hf]
    · rw [if_neg hne]
  have hl : l ≠ i := fun heq => he.server.1 heq.symm
  refine ⟨fun j => ?_, fun j k r => ?_, h.group, h.call, ?_, fun k j e' he' => ?_, h.ack, h.record,
    h.stored, fun j hj => ?_, fun j hj => ?_⟩
  · rw [hkeep, hself Node.up rfl]
    exact h.members j
  · rw [hkeep, hkeep, hself Node.conn rfl, hself Node.region rfl]
    exact h.connected j k r
  · rw [hkeep, if_neg hl]
    exact h.born
  · rcases setEntryWrite_get he' with ⟨rfl, rfl, rfl⟩ | hold
    · refine ⟨he.server, ?_, he.posted, he.bytes⟩
      rw [hkeep, hself Node.region rfl]
      exact he.region
    · have hok := h.write k j e' hold
      refine ⟨hok.server, ?_, hok.posted, hok.bytes⟩
      rw [hkeep, hself Node.region rfl]
      exact hok.region
  · rw [hkeep] at hj ⊢
    rcases eq_or_ne j i with rfl | hne
    · rw [if_pos rfl]
      show ReplicaInv T w.requests ((w.setEntryWrite id j e).writesTo j) j _
      rw [setEntryWrite_writesTo]
      exact hreplica
    · rw [if_neg hne] at hj ⊢
      show ReplicaInv T w.requests ((w.setEntryWrite id i e).writesTo j) j _
      rw [setEntryWrite_writesTo_ne _ _ _ hne]
      exact h.replica j hj
  · rw [hkeep]
    rcases eq_or_ne j i with rfl | hne
    · rw [if_pos rfl]
      show AppliedInv T (doneCount w.calls) w.requests ((w.setEntryWrite id j e).writesTo j) _
      rw [setEntryWrite_writesTo]
      have hold := (h.applied j hj).extend hext
      exact ⟨hold.view, hold.le, hold.bound, hold.index, hold.record, hold.commit⟩
    · rw [if_neg hne]
      show AppliedInv T (doneCount w.calls) w.requests ((w.setEntryWrite id i e).writesTo j) _
      rw [setEntryWrite_writesTo_ne _ _ _ hne]
      exact h.applied j hj

end Group

/-! ## §5. What a step leaves alone. -/

/-- The same process, with the same connections. -/
structure Node.Same (nd nd' : Node) : Prop where
  up : nd'.up = nd.up
  region : nd'.region = nd.region
  leaderId : nd'.leaderId = nd.leaderId
  conn : nd'.conn = nd.conn

theorem Node.Same.refl (nd : Node) : nd.Same nd := ⟨rfl, rfl, rfl, rfl⟩

theorem Node.Same.trans {nd nd' nd'' : Node} (h : nd.Same nd') (h' : nd'.Same nd'') : nd.Same nd'' :=
  ⟨h'.up.trans h.up, h'.region.trans h.region, h'.leaderId.trans h.leaderId, h'.conn.trans h.conn⟩

/-- Bytes that arrive change nothing of the process. -/
theorem Node.Same.setEntries (nd : Node) (m : Mem) : nd.Same (nd.setEntries m) :=
  ⟨rfl, rfl, rfl, rfl⟩

/-- Nor does a submission. -/
theorem Node.Same.alloc (nd : Node) (q : Request) : nd.Same (nd.alloc q) :=
  ⟨rfl, rfl, rfl, rfl⟩

section Frame
variable {w w' : World}

/-- A step of one node leaves the others alone. -/
theorem same_setNode {i : Nat} {nd : Node} (h : (w.nodes i).Same nd) (j : Nat) :
    (w.nodes j).Same ((w.setNode i nd).nodes j) := by
  rcases eq_or_ne j i with rfl | hne
  · rw [setNode_nodes_self]
    exact h
  · rw [setNode_nodes_ne _ _ _ hne]
    exact .refl _

/-- A call changes no node's process. -/
theorem CallStep.same {id : Nat} {c : Call} {stored : Bool} (h : CallStep w id c stored w')
    (j : Nat) : (w.nodes j).Same (w'.nodes j) := by
  cases h with
  | sample | fill | mark => exact same_setNode (w := w) (.setEntries _ _) j
  | incWrite =>
      refine same_setNode (w := w) ?_ j
      exact ⟨rfl, rfl, rfl, rfl⟩
  | _ => exact .refl _

/-- The fixed part of a call. -/
structure Call.Same (c c' : Call) : Prop where
  owner : c'.owner = c.owner
  region : c'.region = c.region
  req : c'.req = c.req
  next : c'.next = c.next
  entry : c'.entry = c.entry
  offset : c'.offset = c.offset

theorem set_get_self {α : Type*} {xs : List α} {id : Nat} {x : α} (h : xs[id]? = some x) :
    xs.set id x = xs := by
  obtain ⟨hlt, rfl⟩ := List.getElem?_eq_some_iff.mp h
  exact List.set_getElem_self hlt

/-- A step of a call changes no other call, and of its own neither request nor place. -/
theorem CallStep.frame {id : Nat} {c : Call} {stored : Bool} (h : CallStep w id c stored w')
    (hc : w.calls[id]? = some c) : ∃ c', w'.calls = w.calls.set id c' ∧ c.Same c' := by
  cases h with
  | spin => exact ⟨c, (set_get_self hc).symm, ⟨rfl, rfl, rfl, rfl, rfl, rfl⟩⟩
  | _ => exact ⟨_, rfl, ⟨rfl, rfl, rfl, rfl, rfl, rfl⟩⟩

/-- Of the nodes, a call changes the bytes of a log and a commit point. -/
theorem CallStep.field {α : Type*} (f : Node → α) (hentries : ∀ nd m, f (Node.setEntries nd m) = f nd)
    (hcommitted : ∀ nd vs, f { nd with committed := vs } = f nd) {id : Nat} {c : Call} {stored : Bool}
    (h : CallStep w id c stored w') (j : Nat) : f (w'.nodes j) = f (w.nodes j) := by
  cases h with
  | sample | fill | mark =>
      refine setNode_field (w := w) f fun heq => ?_
      rw [← heq]
      exact hentries _ _
  | incWrite =>
      refine setNode_field (w := w) f fun heq => ?_
      rw [← heq]
      exact hcommitted _ _
  | _ => rfl

/-- A call that goes on is still that of its request. -/
theorem CallStep.requests {id : Nat} {c : Call} {stored : Bool} (h : CallStep w id c stored w')
    (hc : w.calls[id]? = some c) : w'.requests = w.requests := by
  obtain ⟨c', hcalls, hsame⟩ := h.frame hc
  unfold World.requests
  rw [hcalls]
  exact map_set_same hc hsame.req

/-- The replica thread changes no node's process. -/
theorem ReplicaStep.same {i hash : Nat} {stored : Bool} (h : ReplicaStep w i stored hash w')
    (j : Nat) : (w.nodes j).Same (w'.nodes j) := by
  cases h with
  | leader => exact .refl _
  | _ =>
      refine same_setNode (w := w) ?_ j
      exact ⟨rfl, rfl, rfl, rfl⟩

/-- A replica thread touches nothing of the leader's and of the network but its acks. -/
theorem ReplicaStep.frame {i hash : Nat} {stored : Bool} (h : ReplicaStep w i stored hash w') :
    w'.size = w.size ∧ w'.calls = w.calls ∧ w'.entryWrites = w.entryWrites := by
  cases h <;> exact ⟨rfl, rfl, rfl⟩

/-- The replica thread of a node that leads only looks whether it still does. -/
theorem ReplicaStep.leader_nodes {i hash l : Nat} {stored : Bool} (h : ReplicaStep w i stored hash w')
    (hidle : (w.nodes l).pc = .poll) (hleads : (w.nodes l).leaderId = l) :
    w'.nodes l = w.nodes l := by
  have hne : (w.nodes i).pc ≠ .poll ∨ (w.nodes i).leaderId ≠ i → l ≠ i := by
    rintro hdoes rfl
    exact hdoes.elim (fun hpc => hpc hidle) fun hlead => hlead hleads
  cases h with
  | leader => rfl
  | poll _ hlead => exact setNode_nodes_ne _ _ _ (hne (.inr hlead))
  | measure hpc | marker hpc | accept hpc | acceptUnstored hpc | unconnected hpc | ack hpc | commit hpc
  | apply hpc | applied hpc => exact setNode_nodes_ne _ _ _ (hne (.inl (by rw [hpc]; nofun)))

/-- The replica thread submits nothing. -/
theorem ReplicaStep.requests {i hash : Nat} {stored : Bool} (h : ReplicaStep w i stored hash w') :
    w'.requests = w.requests := congrArg (List.map Call.req) h.frame.2.1

end Frame

end RdmaPaxos
