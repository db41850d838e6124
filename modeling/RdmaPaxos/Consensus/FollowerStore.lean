/-
  RdmaPaxos.Consensus.FollowerStore
  ─────────────────────────────────
  **WHAT A FOLLOWER ACKNOWLEDGES AND WHAT IT HAS STORED.**

  `handle_accept_req` calls `store_record` and does not look at what it returns:
  it acknowledges the entry, and later passes its number to the callback, whether
  or not the record is there.  `leader_handle_submit_req` does look, and gives the
  request up.

  §1  the property, and what a run has to respect for it;
  §2  one step: with successful stores a follower stays honest, wherever its log
      and its entries come from, as long as nobody writes over its prepared ack
      and no entry lets it execute what it never accepted;
  §3  under one leader and one lap of the log both provisos hold by themselves;
  §4  the theorem, and a run in which one store fails.
-/
import RdmaPaxos.Consensus.Join

namespace RdmaPaxos

open RdmaPaxos.ByteMemory RdmaPaxos.Run RdmaPaxos.Ticket

/-! ## §1. Acknowledged, executed, stored. -/

/-- There is a record under `key`. -/
def HasRecord (db : Nat → Option Buf) (key : Nat) : Prop := ∃ b, db key = some b

/-- Follower `f` has acknowledged and executed only what it has stored. -/
structure OnlyStored (f : Nat) (w : World) : Prop where
  /-- an ack carries the stamp of a record in the store -/
  acked : ∀ e ∈ w.ackWrites, e.src = f → HasRecord (w.db f) (vstol (readVs e.byte 0))
  /-- the callback found a record under every number it was given -/
  executed : ∀ v ∈ (w.nodes f).applied, ∃ b, v.2 = some b

/-- No call of `store_record` on node `f` fails. -/
def FollowerStores (f : Nat) : Action → Prop
  | .replica i stored _ => i = f → stored = true
  | _ => True

instance (f : Nat) : (a : Action) → Decidable (FollowerStores f a)
  | .replica .. => inferInstanceAs (Decidable (_ → _))
  | .start .. | .crash .. | .joinReply .. | .connect .. | .destroy .. | .relaunch .. | .submit ..
  | .call .. | .deliverEntry .. | .deliverAck .. => isTrue trivial

/-- The bytes from `off` to `off + k` spare the stamp that `nd`, in slot `f`, is about
to send. -/
def Node.Spares (nd : Node) (f off k : Nat) : Prop :=
  ∀ entry x, nd.pc = .ack entry → entry + acceptAckSize * f ≤ x →
    x < entry + acceptAckSize * f + 8 → x < off ∨ off + k ≤ x

/-- What the other nodes leave to follower `f`: it submits nothing itself, a prepared ack
is not written over before it is sent, and an entry says of accepted entries only that
they can be executed. -/
def Undisturbed (f : Nat) (w : World) : Action → Prop
  | .submit i _ => i ≠ f
  | .replica i _ _ => i = f → ∀ entry index, (w.nodes f).pc = .commit entry →
      vstol (w.nodes f).committed < index →
      index ≤ vstol (readVs (w.nodes f).log.entries (entry + offCanbeExed)) →
      ∃ v ∈ (w.nodes f).accepted, index = vstol v.1
  | .deliverEntry id i k => i = f → ∀ e, w.entryWrites id i = some e →
      (w.nodes f).Spares f (e.off + e.visible) k
  | .deliverAck a k => ∀ e, w.ackWrites[a]? = some e → e.dst = f →
      (w.nodes f).Spares f (e.off + e.visible) k
  | _ => True

/-! ## §2. One step. -/

/-- The follower's process: whatever it has accepted, is about to acknowledge or is
executing is in the store. -/
structure Backed (db : Nat → Option Buf) (f : Nat) (nd : Node) : Prop where
  accepted : ∀ v ∈ nd.accepted, HasRecord db (vstol v.1)
  executed : ∀ v ∈ nd.applied, ∃ b, v.2 = some b
  reply : ∀ entry, nd.pc = .ack entry →
    HasRecord db (vstol (readVs nd.log.entries (entry + acceptAckSize * f)))
  pending : ∀ entry index last, nd.pc = .apply entry index last →
    ∀ i, index ≤ i → i ≤ last → HasRecord db i

/-- The thread has neither an ack nor an execution before it. -/
def ReplicaPc.uncommitted : ReplicaPc → Bool
  | .ack _ | .apply _ _ _ => false
  | _ => true

/-- Follower `f` has stored what it acked, and what it is about to ack. -/
structure StoringInv (f : Nat) (w : World) : Prop where
  calls : ∀ c ∈ w.calls, c.owner ≠ f
  acked : ∀ e ∈ w.ackWrites, e.src = f → HasRecord (w.db f) (vstol (readVs e.byte 0))
  node : Backed (w.db f) f (w.nodes f)

section Steps

variable {f : Nat} {w w' : World} {a : Action}

theorem HasRecord.storeRecord {j key : Nat} (h : HasRecord (w.db j) key) (i k : Nat) (b : Buf) :
    HasRecord ((w.storeRecord i k b).db j) key := by
  unfold HasRecord
  rw [storeRecord_db]
  split
  · exact ⟨b, rfl⟩
  · exact h

theorem Backed.mono {db db' : Nat → Option Buf} {nd : Node} (h : Backed db f nd)
    (hdb : ∀ key, HasRecord db key → HasRecord db' key) : Backed db' f nd where
  accepted v hv := hdb _ (h.accepted v hv)
  executed := h.executed
  reply entry hpc := hdb _ (h.reply entry hpc)
  pending entry index last hpc i hi hi' := hdb _ (h.pending entry index last hpc i hi hi')

/-- A process that is about to neither acknowledge nor execute. -/
theorem Backed.of_uncommitted {db : Nat → Option Buf} {nd : Node} (hpc : nd.pc.uncommitted = true)
    (haccepted : ∀ v ∈ nd.accepted, HasRecord db (vstol v.1))
    (hexecuted : ∀ v ∈ nd.applied, ∃ b, v.2 = some b) : Backed db f nd where
  accepted := haccepted
  executed := hexecuted
  reply entry h := by rw [h] at hpc; cases hpc
  pending entry index last h := by rw [h] at hpc; cases hpc

/-- Bytes arrive that spare the prepared ack. -/
theorem Backed.setEntries {db : Nat → Option Buf} {nd : Node} (h : Backed db f nd) {off k : Nat}
    (byte : Nat → UInt8) (hspares : nd.Spares f off k) :
    Backed db f (nd.setEntries (write nd.log.entries off k byte)) where
  accepted := h.accepted
  executed := h.executed
  reply entry hpc := by
    have hread : readVs (write nd.log.entries off k byte) (entry + acceptAckSize * f)
        = readVs nd.log.entries (entry + acceptAckSize * f) := by
      refine readVs_congr fun j hj => write_outside _ _ ?_
      exact hspares entry _ hpc (Nat.le_add_right _ _) (by omega)
    show HasRecord db (vstol (readVs (write nd.log.entries off k byte) _))
    rw [hread]
    exact h.reply entry hpc
  pending := h.pending

/-- Lines 295–324: the entry is accepted, and its record is there. -/
theorem Backed.accept {db : Nat → Option Buf} {nd : Node} (h : Backed db f nd) (hash entry : Nat)
    (hrecord : HasRecord db (vstol (readVs nd.log.entries (entry + offMsgVs)))) :
    Backed db f (nd.accept f entry hash) where
  accepted v hv := by
    rcases List.mem_append.mp hv with hold | hlast
    · exact h.accepted v hold
    · obtain rfl := List.mem_singleton.mp hlast
      exact hrecord
  executed := h.executed
  reply entry' hpc := by
    cases hpc
    rw [accept_log, replyEntry_stamp]
    exact hrecord
  pending entry' index last hpc := by cases hpc

/-- One node changes. -/
theorem StoringInv.setNode (h : StoringInv f w) {i : Nat} {nd : Node}
    (hnd : i = f → Backed (w.db f) f nd) : StoringInv f (w.setNode i nd) where
  calls := h.calls
  acked := h.acked
  node := by
    rcases eq_or_ne f i with rfl | hne
    · rw [setNode_nodes_self]
      exact hnd rfl
    · rw [setNode_nodes_ne _ _ _ hne]
      exact h.node

theorem StoringInv.storeRecord (h : StoringInv f w) (i key : Nat) (b : Buf) :
    StoringInv f (w.storeRecord i key b) where
  calls := h.calls
  acked e he hsrc := (h.acked e he hsrc).storeRecord i key b
  node := h.node.mono fun _ hheld => hheld.storeRecord i key b

theorem StoringInv.setCall (h : StoringInv f w) {id : Nat} {c : Call} (hc : c.owner ≠ f) :
    StoringInv f (w.setCall id c) where
  calls d hd := by
    rcases List.mem_or_eq_of_mem_set hd with hold | rfl
    · exact h.calls d hold
    · exact hc
  acked := h.acked
  node := h.node

/-- A call of another node. -/
theorem StoringInv.callStep (h : StoringInv f w) {id : Nat} {c : Call} {stored : Bool}
    (hown : c.owner ≠ f) (hstep : CallStep w id c stored w') : StoringInv f w' := by
  cases hstep with
  | spin => exact h
  | sample | fill | mark | incWrite =>
      exact (h.setNode fun heq => absurd heq hown).setCall hown
  | store => exact (h.storeRecord _ _ _).setCall hown
  | post =>
      refine StoringInv.setCall ?_ hown
      exact ⟨h.calls, h.acked, h.node⟩
  | fail | skip | posted | hit | miss | scanned | ackId | quorum | again | leaveSpin | incRead =>
      exact h.setCall hown

/-- The replica thread, of the follower or of another node. -/
theorem StoringInv.replicaStep (h : StoringInv f w) {i hash : Nat} {stored : Bool}
    (hstores : i = f → stored = true) (hok : Undisturbed f w (.replica i stored hash))
    (hstep : ReplicaStep w i stored hash w') : StoringInv f w' := by
  cases hstep with
  | leader => exact h
  | poll | marker =>
      refine h.setNode fun heq => ?_
      subst heq
      refine .of_uncommitted ?_ h.node.accepted h.node.executed
      dsimp only
      split <;> rfl
  | @accept _ entry =>
      refine (h.storeRecord _ _ _).setNode fun heq => ?_
      subst heq
      exact (h.storeRecord _ _ _).node.accept hash entry ⟨_, by rw [storeRecord_db, if_pos ⟨rfl, rfl⟩]⟩
  | acceptUnstored => exact h.setNode fun heq => absurd (hstores heq) Bool.false_ne_true
  | measure | unconnected | applied =>
      refine h.setNode fun heq => ?_
      subst heq
      exact .of_uncommitted rfl h.node.accepted h.node.executed
  | @ack _ _ entry leader region hpc =>
      have hnode : StoringInv f (w.setNode i { w.nodes i with pc := .commit entry }) := by
        refine h.setNode fun heq => ?_
        subst heq
        exact .of_uncommitted rfl h.node.accepted h.node.executed
      refine ⟨hnode.calls, fun e he hsrc => ?_, hnode.node⟩
      rcases List.mem_append.mp he with hold | hlast
      · exact h.acked e hold hsrc
      · -- the bytes sent are those of the slot
        obtain rfl := List.mem_singleton.mp hlast
        obtain rfl : i = f := hsrc
        exact h.node.reply entry hpc
  | @commit _ _ entry hpc =>
      refine h.setNode fun heq => ?_
      subst heq
      refine ⟨h.node.accepted, h.node.executed, fun entry' h' => ?_, fun entry' index last h' => ?_⟩
      · dsimp only at h'
        split at h' <;> cases h'
      · -- what the entry lets the follower execute, it has accepted
        dsimp only at h'
        split at h' <;> cases h'
        intro j hj hj'
        obtain ⟨v, hv, rfl⟩ := hok rfl entry j hpc hj hj'
        exact h.node.accepted v hv
  | @apply _ _ entry index last hpc hle =>
      refine h.setNode fun heq => ?_
      subst heq
      refine ⟨h.node.accepted, fun v hv => ?_, fun entry' h' => ?_, ?_⟩
      · rcases List.mem_append.mp hv with hold | hlast
        · exact h.node.executed v hold
        · obtain rfl := List.mem_singleton.mp hlast
          exact h.node.pending entry index last hpc index (Nat.le_refl _) hle
      · cases h'
      · intro entry' index' last' h' j hj hj'
        cases h'
        exact h.node.pending entry index last hpc j (by omega) hj'

/-- **One step.** -/
theorem StoringInv.preserved (h : StoringInv f w) (hstores : FollowerStores f a)
    (hok : Undisturbed f w a) (hstep : step w a = some w') : StoringInv f w' := by
  cases step_cases hstep with
  | start =>
      refine h.setNode fun _ => .of_uncommitted rfl ?_ ?_
      · intro v hv
        cases hv
      · intro v hv
        cases hv
  | relaunch _ _ hpc =>
      refine h.setNode fun heq => ?_
      subst heq
      refine .of_uncommitted (by rw [show (w.nodes _).relaunch.pc = _ from hpc]; rfl) ?_ h.node.executed
      intro v hv
      cases hv
  | crash | joinReply | connect | destroy =>
      refine h.setNode fun heq => ?_
      subst heq
      exact ⟨h.node.accepted, h.node.executed, h.node.reply, h.node.pending⟩
  | @submit i q =>
      have hnode : StoringInv f (w.setNode i ((w.nodes i).alloc q)) :=
        h.setNode fun heq => absurd heq hok
      refine ⟨fun c hc => ?_, hnode.acked, hnode.node⟩
      rcases List.mem_append.mp hc with hold | hlast
      · exact h.calls c hold
      · obtain rfl := List.mem_singleton.mp hlast
        exact hok
  | call hc _ _ hcall => exact h.callStep (h.calls _ (List.mem_of_getElem? hc)) hcall
  | replica _ hrep => exact h.replicaStep hstores hok hrep
  | @deliverEntry id i k e he =>
      have hposted : StoringInv f (w.setEntryWrite id i { e with visible := e.visible + k }) :=
        ⟨h.calls, h.acked, h.node⟩
      refine hposted.setNode fun heq => ?_
      subst heq
      exact h.node.setEntries _ (hok rfl _ he)
  | @deliverAck i k e he =>
      have hacks : StoringInv f (w.setAckWrite i { e with visible := e.visible + k }) := by
        refine ⟨h.calls, fun e' he' hsrc => ?_, h.node⟩
        rcases List.mem_or_eq_of_mem_set he' with hold | rfl
        · exact h.acked e' hold hsrc
        · exact h.acked e (List.mem_of_getElem? he) hsrc
      refine hacks.setNode fun heq => ?_
      subst heq
      exact h.node.setEntries _ (hok e he rfl)

theorem StoringInv.initial (f n : Nat) : StoringInv f (World.initial n) where
  calls c hc := by cases hc
  acked e he := by cases he
  node := .of_uncommitted rfl (fun v hv => by cases hv) fun v hv => by cases hv

theorem StoringInv.onlyStored (h : StoringInv f w) : OnlyStored f w := ⟨h.acked, h.node.executed⟩

end Steps

/-! ## §3. One leader, one lap. -/

section OneLap

variable {T : Request → Prop} {l p f : Nat} {w w' : World} {a : Action}

/-- An entry tells its follower to execute requests before its own only, and those it has
accepted. -/
theorem Inv.canbe_accepted (h : Inv T l p w) (hf : f ≠ l) {entry index : Nat}
    (hpc : (w.nodes f).pc = .commit entry) (hlow : vstol (w.nodes f).committed < index)
    (hhigh : index ≤ vstol (readVs (w.nodes f).log.entries (entry + offCanbeExed))) :
    ∃ v ∈ (w.nodes f).accepted, index = vstol v.1 := by
  obtain ⟨k, hk⟩ := h.worksOn (.inr (.inl hpc))
  obtain ⟨e, x, -, hx, -, hx32, -, hmem⟩ := h.canbeExed hk
  have hrep := h.replica f fun hboth => hf hboth.1
  have happ := h.applied f hf
  have hcommitted : (w.nodes f).committed = ⟨1, (w.nodes f).committed.reqId⟩ := by
    rw [← happ.view]
  rw [hcommitted, vstol_viewOne] at hlow
  rw [hmem, vstol_viewOne, UInt32.toNat_ofNat_of_lt' hx32] at hhigh
  obtain ⟨t, rfl⟩ : ∃ t, index = viewBase + (t + 1) := ⟨index - viewBase - 1, by omega⟩
  have hlen := hk.1
  have hlt : t < (w.nodes f).accepted.length := by omega
  have hlt' : t < w.requests.length := Nat.lt_of_lt_of_le hlt hrep.accepted_le
  have hshort := h.length_lt
  rw [← length_requests] at hshort
  -- accepted entry `t` is request `t`
  have hstamp : (w.nodes f).accepted[t].1 = stampOf t := by
    obtain ⟨-, -, hvs, -⟩ := hrep.accepted.get t _ (List.getElem?_eq_getElem hlt)
    exact hvs
  refine ⟨_, List.getElem_mem hlt, ?_⟩
  rw [hstamp, vstol_stampOf (by omega)]

/-- **In one lap of one leader a follower is left undisturbed.** -/
theorem Inv.undisturbed (h : Inv T l p w) (hf : f ≠ l) (hok : SoleLeader l p w a)
    (hstep : step w a = some w') : Undisturbed f w a := by
  cases step_cases hstep with
  | submit =>
      obtain ⟨rfl, -⟩ := hok
      exact fun heq => hf heq.symm
  | replica =>
      rintro rfl entry index hpc hlow hhigh
      exact h.canbe_accepted hf hpc hlow hhigh
  | @deliverEntry id i k e he _ _ hk =>
      rintro rfl e' he' entry x hpc hx hx'
      obtain rfl : e = e' := Option.some.inj (he.symm.trans he')
      obtain ⟨n, hworks⟩ := h.worksOn (.inl hpc)
      have hi := h.server_lt hworks.2.2
      unfold maxServerCount at hi
      unfold acceptAckSize at hx hx'
      refine h.arrives_elsewhere he hk hworks (by omega) ?_
      unfold sizeofEntry
      omega
  | @deliverAck i k e he =>
      intro e' he' hdst
      obtain rfl : e = e' := Option.some.inj (he.symm.trans he')
      exact absurd (hdst.symm.trans (h.ack e (List.mem_of_getElem? he)).dst) hf
  | start | crash | joinReply | connect | destroy | relaunch | call => trivial

theorem soleLeader_undisturbed {n : Nat} (hf : f ≠ l)
    (h : Reaches step (fun w a => FollowerStores f a ∧ SoleLeader l p w a) (World.initial n) w) :
    Reaches step (fun w a => FollowerStores f a ∧ Undisturbed f w a) (World.initial n) w := by
  have hinv : ∀ {s}, Reaches step (fun w a => FollowerStores f a ∧ SoleLeader l p w a)
      (World.initial n) s → Inv Request.Short l p s := fun hrun =>
    reaches_inv (.initial n l p) (fun _ _ hok => hok.2) (.inl fun _ hq => hq) hrun
  induction h with
  | refl => exact .refl
  | tail hrun hok hstep ih => exact ih.tail ⟨hok.1, (hinv hrun).undisturbed hf hok.2 hstep⟩ hstep

end OneLap

/-! ## §4. Exactly the failed stores. -/

theorem undisturbed_onlyStored {f n : Nat} {w : World}
    (h : Reaches step (fun w a => FollowerStores f a ∧ Undisturbed f w a) (World.initial n) w) :
    OnlyStored f w := by
  have hinv : StoringInv f w := h.invariant (I := StoringInv f) (.initial f n)
    fun _ _ _ hi hok hs => hi.preserved hok.1 hok.2 hs
  exact hinv.onlyStored

/-- **A follower whose stores succeed acknowledges and executes only what it has stored**:
in any run that leaves it undisturbed, and so in every run of one leader over one lap of
the log. -/
theorem follower_only_stored (f n : Nat) (w : World) :
    (Reaches step (fun w a => FollowerStores f a ∧ Undisturbed f w a) (World.initial n) w →
        OnlyStored f w)
      ∧ ∀ l p, f ≠ l →
        Reaches step (fun w a => FollowerStores f a ∧ SoleLeader l p w a) (World.initial n) w →
        OnlyStored f w :=
  ⟨undisturbed_onlyStored, fun _ _ hf h => undisturbed_onlyStored (soleLeader_undisturbed hf h)⟩

/-- Two requests of a leader in a group of two; `stored` is what `store_record` returns to the
follower for the first. -/
def secondCarriesFirst (stored : Bool) : List Action :=
  joinEarly ++ [.submit 0 connectReq] ++ callSteps 0 7 ++ [.deliverEntry 0 1 217]
    ++ replicaSteps 1 3 ++ [.replica 1 stored 0] ++ replicaSteps 1 2
    ++ [.deliverAck 0 24] ++ callSteps 0 13
    ++ [.submit 0 (sendReq 65)] ++ callSteps 1 7 ++ [.deliverEntry 1 1 218] ++ replicaSteps 1 7

/-- Both are stored: two acks, one execution. -/
theorem follower_only_stored_twoRequests :
    ∃ w, w.ackWrites.length = 2 ∧ (w.nodes 1).applied.length = 1
      ∧ Reaches step (fun w a => FollowerStores 1 a ∧ Undisturbed 1 w a) (World.initial 2) w
      ∧ OnlyStored 1 w := by
  obtain ⟨w, hrun, hview⟩ := exists_reaches_of_execOk step
    (fun w a => FollowerStores 1 a ∧ SoleLeader 0 1 w a) (World.initial 2) (secondCarriesFirst true)
    (fun w => (w.ackWrites.length, (w.nodes 1).applied.length)) (v := (2, 1)) (by decide +kernel)
  have hund := soleLeader_undisturbed (by decide) hrun
  exact ⟨w, congrArg Prod.fst hview, congrArg Prod.snd hview, hund,
    (follower_only_stored 1 2 w).1 hund⟩

/-- The first store fails: it is acknowledged all the same, and the callback is given a
number under which there is nothing. -/
theorem follower_acks_unstored :
    ¬ ∀ (n l p f : Nat) (w : World), f ≠ l → Reaches step (SoleLeader l p) (World.initial n) w →
      OnlyStored f w := by
  intro hall
  obtain ⟨w, hrun, hview⟩ := exists_reaches_of_execOk step (SoleLeader 0 1) (World.initial 2)
    (secondCarriesFirst false) (fun w => (w.nodes 1).applied.map fun v => v.2.isSome) (v := [false])
    (by decide +kernel)
  have hsome : ∀ b ∈ (w.nodes 1).applied.map fun v => v.2.isSome, b = true := by
    intro b hb
    obtain ⟨v, hv, rfl⟩ := List.mem_map.mp hb
    exact Option.isSome_iff_exists.mpr ((hall 2 0 1 1 w (by decide) hrun).executed v hv)
  rw [hview] at hsome
  exact absurd (hsome false (List.mem_singleton.mpr rfl)) Bool.false_ne_true

end RdmaPaxos
