/-
  RdmaPaxos.Consensus.Safety
  ──────────────────────────
  **STATE-MACHINE SAFETY UNDER ONE FIXED LEADER.**

  A follower applies the leader's records 1, 2, 3, … in this order, each of them
  only after the leader has counted it as committed, and each of them is in the
  follower's store by then.  The commit point reaches a follower only inside
  later entries; entry `r` never carries a commit point of `r` or more, so the
  records it covers were accepted, and stored, before.

  The record in the store is the leader's as long as no follower takes the length of an
  entry from a size that is still arriving.  If one does, a byte of the payload may pass
  for the marker, and the follower stores and applies what was there of the payload.

  §1  `Stored` — what a follower accepted is in its store, if stores succeed;
  §2  the runs with a fixed leader;
  §3  the theorem, and a payload applied in part.
-/
import RdmaPaxos.Consensus.ReplicaSteps

namespace RdmaPaxos

open RdmaPaxos.ByteMemory RdmaPaxos.Ticket RdmaPaxos.Run

/-! ## §1. Accepted records are in the store. -/

/-- A property of every node, after one of them changed. -/
theorem forall_setNode {w : World} {i : Nat} {nd : Node} {P : Nat → Node → Prop}
    (h : ∀ j, P j (w.nodes j)) (hi : P i nd) : ∀ j, P j ((w.setNode i nd).nodes j) := by
  intro j
  rcases eq_or_ne j i with rfl | hne
  · rw [setNode_nodes_self]
    exact hi
  · rw [setNode_nodes_ne _ _ _ hne]
    exact h j

/-- Everything accepted is in the store, and so was everything applied. -/
def Stored (db : Nat → Option Buf) (nd : Node) : Prop :=
  (∀ j, j < nd.accepted.length → ∃ b, db (vstol (stampOf j)) = some b)
    ∧ ∀ v ∈ nd.applied, ∃ b, v.2 = some b

/-- Bytes that arrive are not in the store. -/
theorem Stored.setEntries {db : Nat → Option Buf} {nd : Node} (h : Stored db nd) (m : Mem) :
    Stored db (nd.setEntries m) := h

/-- No call of `store_record` fails. -/
def StoresSucceed : Action → Prop
  | .call _ stored => stored = true
  | .replica _ stored _ => stored = true
  | _ => True

section Stored
variable {T : Request → Prop} {l p : Nat} {w : World}

/-- One more record. -/
theorem storedOf_storeRecord (hs : ∀ j, Stored (w.db j) (w.nodes j)) (i key : Nat) (b : Buf) :
    ∀ j, Stored ((w.storeRecord i key b).db j) (w.nodes j) := by
  intro j
  refine ⟨fun k hk => ?_, (hs j).2⟩
  rw [storeRecord_db]
  split
  · exact ⟨b, rfl⟩
  · exact (hs j).1 k hk

/-- Nothing to store. -/
theorem stored_booted (n l : Nat) : ∀ j, Stored ((World.booted n l).db j) ((World.booted n l).nodes j) := by
  intro j
  obtain ⟨_, _, _, _, heq, -⟩ := booted_node (n := n) (l := l) j
  rw [heq]
  exact ⟨fun k hk => absurd hk (Nat.not_lt_zero k), fun v hv => by cases hv⟩

/-- A call stores, or leaves the stores alone. -/
theorem stored_callStep (hs : ∀ j, Stored (w.db j) (w.nodes j)) {id : Nat} {c : Call}
    {stored : Bool} {w' : World} (hstep : CallStep w id c stored w') :
    ∀ j, Stored (w'.db j) (w'.nodes j) := by
  cases hstep with
  | store hpc => exact storedOf_storeRecord hs _ _ _
  | sample hpc | fill hpc | mark hpc =>
      exact forall_setNode (P := fun j nd => Stored (w.db j) nd) hs ((hs _).setEntries _)
  | incWrite hpc => exact forall_setNode (P := fun j nd => Stored (w.db j) nd) hs (hs _)
  | _ => exact hs

/-- A follower stores a record before it accepts its entry. -/
theorem stored_replicaStep (h : Inv T l p w) (hs : ∀ j, Stored (w.db j) (w.nodes j)) {i hash : Nat}
    {w' : World} (hstep : ReplicaStep w i true hash w') :
    ∀ j, Stored (w'.db j) (w'.nodes j) := by
  cases hstep with
  | leader hpc hlead => exact hs
  | @accept _ entry hpc =>
      have hrep := h.replica i (h.not_leader (by rw [hpc]; nofun))
      have hold := hrep.pc
      unfold ReplicaPcOk at hold
      rw [hpc] at hold
      obtain ⟨hentry, -, hseen⟩ := hold
      obtain ⟨q, hq, -, hbytes, -⟩ := hrep.mem.headBytes (h.writeBytes i) hseen
      have hvs := hbytes.msgVs
      rw [readVs_entryAt, ← hentry] at hvs
      refine forall_setNode (P := fun j nd => Stored
        ((w.storeRecord i (vstol (readVs (w.nodes i).log.entries (entry + offMsgVs)))
          (recordAt (w.nodes i).log.entries entry)).db j) nd) (storedOf_storeRecord hs _ _ _)
        ⟨fun k hk => ?_, (hs i).2⟩
      have hlen : ((w.nodes i).accept i entry hash).accepted.length
          = (w.nodes i).accepted.length + 1 := List.length_append
      rw [storeRecord_db, hvs]
      split
      · exact ⟨_, rfl⟩
      next hne =>
        have hk' : k < (w.nodes i).accepted.length := by
          have : k ≠ (w.nodes i).accepted.length := fun heq => hne ⟨rfl, by rw [heq]⟩
          omega
        exact (hs i).1 k hk'
  | @apply _ _ entry index last hpc hle =>
      obtain ⟨k, hk⟩ := h.worksOn (.inr (.inr ⟨_, _, hpc⟩))
      have hne := h.seen_ne hk.2.2
      have hacc := (h.replica i fun hboth => hne hboth.1).accepted_le
      have hshort := h.length_lt
      rw [length_requests] at hacc
      have hcommit := (h.applied i hne).commit
      unfold CommitOk at hcommit
      rw [hpc] at hcommit
      obtain ⟨k', e, x, hk', -, -, hx, -, rfl, rfl, -⟩ := hcommit
      -- the next index is below the entry's own number, hence accepted
      obtain ⟨b, hb⟩ := (hs i).1 (w.nodes i).applied.length (by omega)
      refine forall_setNode (P := fun j nd => Stored (w.db j) nd) hs ⟨(hs i).1, fun v hv => ?_⟩
      rcases List.mem_append.mp hv with hold | hlast
      · exact (hs i).2 v hold
      · obtain rfl := List.mem_singleton.mp hlast
        rw [vstol_stampOf (by omega)] at hb
        exact ⟨b, hb⟩
  | poll | measure | marker | unconnected | commit | applied | ack =>
      exact forall_setNode (P := fun j nd => Stored (w.db j) nd) hs (hs i)

/-- **The step lemma.** -/
theorem stored_step (h : Inv T l p w) (hs : ∀ j, Stored (w.db j) (w.nodes j)) {a : Action}
    {w' : World} (hstore : StoresSucceed a) (hstep : step w a = some w') :
    ∀ j, Stored (w'.db j) (w'.nodes j) := by
  cases step_cases hstep with
  | call hc hup hregion hcall => exact stored_callStep hs hcall
  | replica hup hrep =>
      obtain rfl : _ = true := hstore
      exact stored_replicaStep h hs hrep
  | start =>
      exact forall_setNode (P := fun j nd => Stored (w.db j) nd) hs
        ⟨fun k hk => absurd hk (Nat.not_lt_zero k), fun v hv => by cases hv⟩
  | @relaunch i =>
      exact forall_setNode (P := fun j nd => Stored (w.db j) nd) hs
        ⟨fun k hk => absurd hk (Nat.not_lt_zero k), (hs i).2⟩
  | deliverEntry | deliverAck =>
      exact forall_setNode (P := fun j nd => Stored (w.db j) nd) hs ((hs _).setEntries _)
  | crash | joinReply | connect | destroy | submit =>
      exact forall_setNode (P := fun j nd => Stored (w.db j) nd) hs (hs _)

end Stored

/-! ## §2. One fixed leader. -/

/-- The runs of a booted group: only node `l` submits, nobody stops, restarts or
reconnects, stores succeed, and no log has wrapped. -/
def FixedLeader (l : Nat) (w : World) : Action → Prop
  | .submit i _ => i = l ∧ NotWrapping (w.nodes l).log
  | .call _ stored => stored = true
  | .replica i stored _ => stored = true
      ∧ ((w.nodes i).pc = .poll → (w.nodes i).leaderId ≠ i → NotWrapping (w.nodes i).log)
  | .deliverEntry _ _ _ => True
  | .deliverAck _ _ => True
  | _ => False

instance (l : Nat) (w : World) : (a : Action) → Decidable (FixedLeader l w a)
  | .submit .. => inferInstanceAs (Decidable (_ ∧ _))
  | .call .. => inferInstanceAs (Decidable (_ = _))
  | .replica .. => inferInstanceAs (Decidable (_ ∧ (_ → _ → _)))
  | .deliverEntry .. | .deliverAck .. => isTrue trivial
  | .start .. | .crash .. | .joinReply .. | .connect .. | .destroy .. | .relaunch .. =>
      isFalse id

section Fixed
variable {n l : Nat} {w w' : World} {a : Action}

theorem FixedLeader.storesSucceed (h : FixedLeader l w a) : StoresSucceed a := by
  cases a with
  | call => exact h
  | replica => exact h.1
  | _ => trivial

/-- With a fixed leader, one process leads. -/
theorem FixedLeader.soleLeader (h : FixedLeader l w a) : SoleLeader l (w.nodes l).region w a := by
  cases a with
  | submit => exact ⟨h.1, rfl, h.2⟩
  | replica => exact h.2
  | _ => trivial

/-- Every node keeps its log. -/
theorem FixedLeader.region (hok : FixedLeader l w a) (hstep : step w a = some w') :
    ∀ j, (w'.nodes j).region = (w.nodes j).region := by
  have hset : ∀ {i : Nat} {nd : Node}, nd.region = (w.nodes i).region →
      ∀ j, ((w.setNode i nd).nodes j).region = (w.nodes j).region := fun {i} {nd} hnd =>
    forall_setNode (P := fun j nd => nd.region = (w.nodes j).region) (fun _ => rfl) hnd
  cases step_cases hstep with
  | start | crash | joinReply | connect | destroy | relaunch => exact absurd hok id
  | submit => exact hset rfl
  | call hc hup hregion hcall => exact hcall.field Node.region (fun _ _ => rfl) fun _ _ => rfl
  | replica hup hrep =>
      cases hrep with
      | leader => exact fun _ => rfl
      | _ => exact hset rfl
  | deliverEntry | deliverAck => exact hset (setEntries_region _ _)

/-- What holds throughout such a run. -/
theorem fixedLeader_reaches {T : Request → Prop} {ok : World → Action → Prop}
    (hfixed : ∀ w a, ok w a → FixedLeader l w a)
    (hT : (∀ q, T q → q.Short) ∨ ∀ w a, ok w a → SizeArrived w a)
    (h : Reaches step ok (World.booted n l) w) :
    Inv T l (w.nodes l).region w ∧ ∀ j, Stored (w.db j) (w.nodes j) := by
  refine h.invariant (I := fun w => Inv T l (w.nodes l).region w ∧ ∀ j, Stored (w.db j) (w.nodes j))
    ⟨Inv.booted n l _, stored_booted n l⟩ ?_
  intro s a s' hinv hoka hs
  have hok := hfixed s a hoka
  rw [hok.region hs l]
  exact ⟨hinv.1.preserved hok.soleLeader (hT.imp_right fun harr => harr s a hoka) hs,
    stored_step hinv.1 hinv.2 hok.storesSucceed hs⟩

end Fixed

/-! ## §3. State-machine safety. -/

/-- A record stored under the number of request `t` was read from the entry of request `t`. -/
theorem Inv.reads_stored {T : Request → Prop} {l p t i : Nat} {w : World} (h : Inv T l p w)
    {q : Request} {b : Buf} (hq : w.requests[t]? = some q)
    (hb : w.db i (vstol (stampOf t)) = some b) : Reads T q (stampOf t) (Record.decode b) := by
  obtain ⟨id, q', hq', hkey, hdec⟩ := h.record i _ b hb
  have hshort := h.length_lt
  have hid : id < w.requests.length := (List.getElem?_eq_some_iff.mp hq').1
  have ht : t < w.requests.length := (List.getElem?_eq_some_iff.mp hq).1
  rw [length_requests] at hid ht
  obtain rfl := vstol_stampOf_inj (by omega) (by omega) hkey
  rw [hq] at hq'
  cases hq'
  exact hdec

/-- Where no size is read in part, it is the record of request `t`. -/
theorem Inv.decode_eq {l p t i : Nat} {w : World} (h : Inv Request.Any l p w) {q : Request}
    {b : Buf} (hq : w.requests[t]? = some q) (hb : w.db i (vstol (stampOf t)) = some b) :
    Record.decode b = q.record (stampOf t) := (h.reads_stored hq hb).whole trivial

/-- **State-machine safety.**  In every state of every run with one fixed leader in which
no size is read in part, a follower has passed exactly the indices of requests 1, …, k to
its callback, in this order, `k` is at most the leader's commit point, and each time the
store held a record equal to the leader's. -/
theorem stateMachineSafety {n l f : Nat} {w : World}
    (h : Reaches step (WholeSizes (FixedLeader l)) (World.booted n l) w) (hf : f ≠ l) :
    (w.nodes f).applied.map Prod.fst
        = (List.range (w.nodes f).applied.length).map (fun t => vstol ⟨1, UInt32.ofNat (t + 1)⟩)
      ∧ (w.nodes f).applied.length ≤ (w.nodes l).committed.reqId.toNat
      ∧ ∀ v ∈ (w.nodes f).applied, ∃ b bl, v.2 = some b ∧ w.db l v.1 = some bl
          ∧ Record.decode b = Record.decode bl := by
  obtain ⟨hinv, hstored⟩ := fixedLeader_reaches (T := Request.Any) (fun _ _ hok => hok.1)
    (.inr fun _ _ hok => hok.2) h
  have happ := hinv.applied f hf
  have hlead := hinv.leader rfl
  have hcount : doneCount w.calls = (w.nodes l).committed.reqId.toNat :=
    hlead.ordered.count_finished
  have hbound := happ.bound
  refine ⟨?_, by omega, fun v hv => ?_⟩
  · apply List.ext_getElem?
    intro t
    rw [List.getElem?_map, List.getElem?_map]
    cases hget : (w.nodes f).applied[t]? with
    | none =>
        rw [List.getElem?_eq_none (by simpa using List.getElem?_eq_none_iff.mp hget)]
        rfl
    | some v =>
        have hlt : t < (w.nodes f).applied.length := (List.getElem?_eq_some_iff.mp hget).1
        rw [List.getElem?_range hlt]
        exact congrArg some (happ.index t v hget)
  · obtain ⟨t, hget⟩ := List.mem_iff_getElem?.mp hv
    have hlt : t < (w.nodes f).applied.length := (List.getElem?_eq_some_iff.mp hget).1
    obtain ⟨b, hb⟩ := (hstored f).2 v hv
    obtain ⟨q, hq, hdec⟩ := happ.record t v b hget hb
    -- request `t` has performed its increment, so the leader stored it long ago
    obtain ⟨c, hc, -⟩ := calls_get hq
    have hfin := (hlead.ordered.finished t _ (phases_get hc)).mpr (by omega)
    have hdone : 3 ≤ c.pc.stage := by
      rw [CallPc.phase_finished.mp hfin]
      decide
    obtain ⟨bl, hbl⟩ := hinv.stored t c hc hdone
    refine ⟨b, bl, hb, by rw [happ.index t v hget]; exact hbl, ?_⟩
    rw [hdec.whole trivial, hinv.decode_eq hq hbl]

/-- A connection request. -/
def connectReq : Request := ⟨.tcpConnect, ⟨0, fun _ => 0⟩, ⟨0, 0⟩⟩
/-- A payload of one byte, of the connection of the first request. -/
def sendReq (byte : UInt8) : Request := ⟨.send, ⟨1, fun _ => byte⟩, ⟨1, 1⟩⟩

/-- Call `id` takes `k` steps. -/
def callSteps (id k : Nat) : List Action := List.replicate k (.call id true)
/-- The replica thread of node `i` takes `k` steps. -/
def replicaSteps (i k : Nat) : List Action := List.replicate k (.replica i true 0)

/-- Two requests in a group of two: the second carries the commit point of the
first, so the follower applies the first. -/
def twoRequests : List Action :=
  [.submit 0 connectReq] ++ callSteps 0 7 ++ [.deliverEntry 0 1 217] ++ replicaSteps 1 6
    ++ [.deliverAck 0 24] ++ callSteps 0 13
    ++ [.submit 0 (sendReq 65)] ++ callSteps 1 7 ++ [.deliverEntry 1 1 218] ++ replicaSteps 1 7

/-- A run in which the follower applies the first record. -/
theorem stateMachineSafety_twoRequests :
    ∃ w, Reaches step (WholeSizes (FixedLeader 0)) (World.booted 2 0) w
      ∧ (w.nodes 1).applied.length = 1
      ∧ (w.nodes 1).applied.map Prod.fst = [vstol ⟨1, 1⟩]
      ∧ (w.nodes 1).applied.length ≤ (w.nodes 0).committed.reqId.toNat
      ∧ ∀ v ∈ (w.nodes 1).applied, ∃ b bl, v.2 = some b ∧ w.db 0 v.1 = some bl
          ∧ Record.decode b = Record.decode bl := by
  obtain ⟨w, hw, hlen⟩ := exists_reaches_of_execOk step (WholeSizes (FixedLeader 0))
    (World.booted 2 0) twoRequests (fun w => (w.nodes 1).applied.length) (v := 1) (by decide +kernel)
  obtain ⟨hidx, hle, hrec⟩ := stateMachineSafety hw (f := 1) (by decide)
  refine ⟨w, hw, hlen, ?_, hle, hrec⟩
  rw [hidx, hlen]
  rfl

/-- A payload of 256 bytes: its size is 257, two bytes of 1, and the byte behind the
fields of an entry is the marker. -/
def longReq : Request := ⟨.send, ⟨256, fun j => if j = 4 then dummyEnd else 65⟩, ⟨1, 1⟩⟩

/-- The entry of the long payload arrives in three parts.  Of the size, one byte is there
when the follower takes the length, so the byte it tests is the fifth of the payload; that
one is there with the second part, and the follower stores five bytes of 256.  The third
part arrives, the leader commits, and the next entry lets the follower apply the record. -/
def tornRequest : List Action :=
  [.submit 0 connectReq] ++ callSteps 0 7 ++ [.deliverEntry 0 1 217] ++ replicaSteps 1 6
    ++ [.deliverAck 0 24] ++ callSteps 0 13
    ++ [.submit 0 longReq] ++ callSteps 1 7 ++ [.deliverEntry 1 1 193] ++ replicaSteps 1 2
    ++ [.deliverEntry 1 1 24] ++ replicaSteps 1 6 ++ [.deliverEntry 1 1 256, .deliverAck 1 24]
    ++ callSteps 1 13
    ++ [.submit 0 (sendReq 65)] ++ callSteps 2 7 ++ [.deliverEntry 2 1 218] ++ replicaSteps 1 8

/-- The record the follower is left with: what follows the marker is still zero. -/
def tornRecord : Record :=
  { longReq.record ⟨1, 2⟩ with
    data := List.replicate 4 65 ++ [dummyEnd] ++ List.replicate 251 0 }

/-- The follower applies a record that is not the leader's. -/
theorem stateMachineSafety_fails :
    ∃ w, Reaches step (FixedLeader 0) (World.booted 2 0) w
      ∧ (w.nodes 1).applied.map (fun v => (v.1, v.2.map Record.decode))
        = [(vstol ⟨1, 1⟩, some (connectReq.record ⟨1, 1⟩)), (vstol ⟨1, 2⟩, some tornRecord)]
      ∧ (w.db 0 (vstol ⟨1, 2⟩)).map Record.decode = some (longReq.record ⟨1, 2⟩)
      ∧ ¬ ∀ v ∈ (w.nodes 1).applied, ∃ b bl, v.2 = some b ∧ w.db 0 v.1 = some bl
          ∧ Record.decode b = Record.decode bl := by
  obtain ⟨w, hw, hval⟩ := exists_reaches_of_execOk step (FixedLeader 0) (World.booted 2 0)
    tornRequest (fun w => ((w.nodes 1).applied.map (fun v => (v.1, v.2.map Record.decode)),
      (w.db 0 (vstol ⟨1, 2⟩)).map Record.decode))
    (v := ([(vstol ⟨1, 1⟩, some (connectReq.record ⟨1, 1⟩)), (vstol ⟨1, 2⟩, some tornRecord)],
      some (longReq.record ⟨1, 2⟩))) (by decide +kernel)
  obtain ⟨happlied, hleader⟩ := Prod.mk.inj hval
  refine ⟨w, hw, happlied, hleader, fun hall => ?_⟩
  have hmem : (vstol ⟨1, 2⟩, some tornRecord)
      ∈ (w.nodes 1).applied.map (fun v => (v.1, v.2.map Record.decode)) := by simp [happlied]
  obtain ⟨v, hv, heq⟩ := List.mem_map.mp hmem
  obtain ⟨b, bl, hb, hbl, hsame⟩ := hall v hv
  obtain ⟨hkey, hrec⟩ := Prod.mk.inj heq
  rw [hb] at hrec
  rw [hkey] at hbl
  rw [hbl] at hleader
  have htorn : tornRecord = longReq.record ⟨1, 2⟩ := by
    rw [← Option.some.inj hrec, hsame]
    exact Option.some.inj hleader
  exact absurd htorn (by decide)

end RdmaPaxos
