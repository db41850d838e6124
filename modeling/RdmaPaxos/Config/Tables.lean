/-
  RdmaPaxos.Config.Tables
  ───────────────────────
  **THE CONFIGURED GROUP AGAINST THE FIXED TABLES.**

  `consensus_read_config` takes any 32-bit `group_size` that is larger than the node's
  own id.  From the node it goes to every loop over the servers, while the tables
  those loops run over have `MAX_SERVER_COUNT` entries:

      node.group_size  ─▶  comp->group_size        leader_handle_submit_req,
                                                   prepare_peer_array, reached_quorum (int)
                       ─▶  config.cid.size         ud_exchange_rc_info
                           uint8_t size            the loops of the election

  Other indices travel: the ids of peers in membership messages, the leader's id in
  an entry, the candidate's in a SID.

    • `node_id_of_soleLeader` — when a follower's entry names a server of the group;
    • `rcSyn_uses_address` — an RC_SYN that falls through to the later cases of `event`
      uses the low half of an address as an index, in a group of any size;
    • `accepted_config_fits_iff` — with one leader process, in one lap of its log, and
      datagrams that have ids of servers wherever `event` looks for one, every index used
      in every run is inside its table, and there are ack slots for a quorum, exactly for
      groups of at most seven.
-/
import RdmaPaxos.Consensus.ReplicaSteps
import RdmaPaxos.Consensus.Membership
import RdmaPaxos.Election.Invariant
import RdmaPaxos.Ud.Event
import Mathlib.Data.List.Perm.Subperm

namespace RdmaPaxos.Config

open RdmaPaxos.ByteMemory RdmaPaxos.Run

/-! ## §1. Reading the configuration (`config-comp.c`). -/

/-- One element of `consensus_config`; `none` where the lookup fails. -/
structure NodeSection where
  ipAddress : Option String
  sysLog : Option Int
  statLog : Option Int
  dbName : Option String

/-- What libconfig finds in a file it can read. -/
structure ConfigFile where
  groupSize : Option UInt32
  consensusConfig : Option (List NodeSection)

/-- The fields of `node` that `consensus_read_config` reads and sets. -/
structure NodeSettings where
  nodeId : UInt32
  groupSize : UInt32
  /-- the text given to `inet_pton` -/
  ipAddress : String
  sysLog : Int
  statLog : Int
  dbName : String

/-- The lines logged before that of libconfig's own error. -/
abbrev Log := List String

/-- The value of a lookup that must succeed. -/
def require {α : Type} (log : Log) : Option α → Except Log α
  | some x => .ok x
  | none => .error log

/-- `consensus_read_config`; an error where it returns -1. -/
def consensusReadConfig (curNode : NodeSettings) (file : Option ConfigFile) : Except Log NodeSettings := do
  let file ← require [] file
  let groupSize ← require [] file.groupSize
  if groupSize ≤ curNode.nodeId then
    .error ["CONSENSUS : Configuration Reading Error : Invalid Node Id.\n"]
  -- the second test of the same pointer, for the net address section, never fails
  let nodes ← require ["CONSENSUS : Cannot Find Nodes Settings.\n"] file.consensusConfig
  let node ← require ["CONSENSUS : Cannot Find Node's Address.\n"] nodes[curNode.nodeId.toNat]?
  let ipAddress ← require [] node.ipAddress
  let dbName ← require [] node.dbName
  -- the two log levels are optional
  return { curNode with
    groupSize := groupSize
    ipAddress := ipAddress
    sysLog := node.sysLog.getD curNode.sysLog
    statLog := node.statLog.getD curNode.statLog
    dbName := dbName }

/-- What a failing lookup would have skipped has been run. -/
theorem bind_ok {α β : Type} {x : Except Log α} {f : α → Except Log β} {y : β}
    (h : x >>= f = .ok y) : ∃ a, x = .ok a ∧ f a = .ok y := by
  cases x with
  | error e => cases h
  | ok a => exact ⟨a, rfl, h⟩

/-- An accepted configuration says no more of the group's size than this. -/
theorem nodeId_lt_of_accepted {curNode nd : NodeSettings} {file : Option ConfigFile}
    (h : consensusReadConfig curNode file = .ok nd) : nd.nodeId < nd.groupSize := by
  obtain ⟨f, -, h⟩ := bind_ok h
  obtain ⟨groupSize, -, h⟩ := bind_ok h
  split at h
  · obtain ⟨_, herr, -⟩ := bind_ok h
    cases herr
  · next hlt =>
    obtain ⟨nodes, -, h⟩ := bind_ok h
    obtain ⟨node, -, h⟩ := bind_ok h
    obtain ⟨ipAddress, -, h⟩ := bind_ok h
    obtain ⟨dbName, -, h⟩ := bind_ok h
    cases h
    exact UInt32.not_le.mp hlt

/-! ## §2. Tables and indices. -/

/-- The tables with `MAX_SERVER_COUNT` entries. -/
inductive Table where
  /-- `config.servers` -/
  | servers
  /-- the two arrays of `leader_handle_submit_req` -/
  | sendFlags | pollCompletion
  /-- `entry->ack` -/
  | ack
  /-- the slots of `ctrl_data` -/
  | voteReq | hb | voteAck
  deriving Repr, DecidableEq

/-- An index used on a table. -/
abbrev Use := Table × Nat

/-- All indices are inside their tables. -/
def Fits (us : List Use) : Prop := ∀ u ∈ us, u.2 < maxServerCount

/-- A table is used at each of these indices. -/
def each (t : Table) (is : List Nat) : List Use := is.map fun i => (t, i)

/-- No index, nothing to fit. -/
theorem fits_nil : Fits [] := fun _ h => (List.not_mem_nil h).elim

/-- One index after the other. -/
theorem fits_cons {u : Use} {us : List Use} : Fits (u :: us) ↔ u.2 < maxServerCount ∧ Fits us :=
  List.forall_mem_cons

/-- One index. -/
theorem fits_one {t : Table} {i : Nat} (h : i < maxServerCount) : Fits [(t, i)] :=
  fits_cons.mpr ⟨h, fits_nil⟩

theorem fits_two {t t' : Table} {i j : Nat} (hi : i < maxServerCount) (hj : j < maxServerCount) :
    Fits [(t, i), (t', j)] := fits_cons.mpr ⟨hi, fits_one hj⟩

/-- Two lists of indices. -/
theorem fits_append {us vs : List Use} : Fits (us ++ vs) ↔ Fits us ∧ Fits vs := List.forall_mem_append

/-- A loop over indices that fit. -/
theorem fits_each {t : Table} {is : List Nat} (h : ∀ i ∈ is, i < maxServerCount) :
    Fits (each t is) := by
  intro u hu
  obtain ⟨i, hi, rfl⟩ := List.mem_map.mp hu
  exact h i hi

/-- A loop over the servers of a group that fits. -/
theorem fits_loop {t : Table} {n : Nat} (hn : n ≤ maxServerCount) : Fits (each t (List.range n)) :=
  fits_each fun _ hi => lt_of_lt_of_le (List.mem_range.mp hi) hn

/-- Either branch. -/
theorem fits_ite {p : Prop} [Decidable p] {us vs : List Use} (h₁ : p → Fits us) (h₂ : ¬ p → Fits vs) :
    Fits (if p then us else vs) := by
  split
  next hp => exact h₁ hp
  next hp => exact h₂ hp

/-- Uses that are made on a condition. -/
theorem fits_when {p : Prop} [Decidable p] {us : List Use} (h : p → Fits us) :
    Fits (if p then us else []) := fits_ite h fun _ => fits_nil

/-! ## §3. The consensus code. -/

/-- `launch_rdma`: `init_server_data`, `dare_init_ib_srv_data` and `rc_init` go over all
of `config.len`. -/
def launchUses : List Use := each .servers (List.range maxServerCount)

/-- One round of either loop of `leader_handle_submit_req`, at server `j`: the endpoint
is looked at before anything else. -/
def roundUses (i : Nat) (conn : Nat → Option Nat) (j : Nat) : List Use :=
  (.servers, j) :: if j ≠ i ∧ (conn j).isSome then [(.sendFlags, j), (.pollCompletion, j)] else []

/-- `prepare_peer_array`, which reads the acks of the output entry. -/
def peerArrayUses (groupSize : Nat) (type : ReqType) : List Use :=
  if type = .output then each .ack (List.range groupSize) else []

/-- The next step of a call of `leader_handle_submit_req`, and of `mgr_on_check` when
the call returns. -/
def callUses (w : World) (c : Call) (stored : Bool) : List Use :=
  match c.pc with
  | .store => if stored then [] else peerArrayUses w.size c.req.type
  | .post j => if j < w.size then roundUses c.owner (w.nodes c.owner).conn j else []
  | .recheck j => if j < maxServerCount then [(.ack, j)] else []
  | .ackId j => [(.ack, j)]
  | .incWrite _ => peerArrayUses w.size c.req.type
  | _ => []

/-- The next step of `handle_accept_req` on node `i`: its reply in its own slot of the
entry, and the ack to the server the entry names. -/
def replicaUses (nd : Node) (i : Nat) : List Use :=
  match nd.pc with
  | .accept _ => [(.ack, i)]
  | .ack entry => [(.servers, readLE nd.log.entries (entry + offNodeId) 4), (.ack, i)]
  | _ => []

/-- What node `i` uses in a step.  `connect` and `destroy` are what a membership message
does to the node; the indices its handlers use are those of `eventUses`. -/
def consensusUses (w : World) (i : Nat) : Action → List Use
  | .start j _ => if j = i then launchUses else []
  | .relaunch j => if j = i then launchUses else []
  | .submit j _ =>
      -- the first loop, inside the critical section
      if j = i ∧ (w.nodes i).up = true ∧ (w.nodes i).leaderId = i then
        (List.range w.size).flatMap (roundUses i (w.nodes i).conn)
      else []
  | .call id stored =>
      match w.calls[id]? with
      | some c => if c.owner = i then callUses w c stored else []
      | none => []
  | .replica j _ _ => if j = i then replicaUses (w.nodes i) i else []
  | _ => []

section Consensus
variable {n i : Nat} {w w' : World} {a : Action}

/-- The size of the group is the configured one, and the recheck loop is inside the
ack slots. -/
structure SlotInv (n : Nat) (w : World) : Prop where
  size : w.size = n
  slot : ∀ c ∈ w.calls, ∀ j, c.pc = .ackId j → j < maxServerCount

/-- A group that is not started. -/
theorem SlotInv.initial (n : Nat) : SlotInv n (World.initial n) where
  size := rfl
  slot := fun _ hc => (List.not_mem_nil hc).elim

/-- A step of a call keeps the size and leaves it at a slot of the table. -/
theorem callStep_slot {id : Nat} {c : Call} {stored : Bool} (h : CallStep w id c stored w')
    (hc : w.calls[id]? = some c) : w'.size = w.size
      ∧ ∃ c', w'.calls = w.calls.set id c' ∧ ∀ j, c'.pc = .ackId j → j < maxServerCount := by
  cases h with
  | spin hpc =>
      refine ⟨rfl, c, (set_get_self hc).symm, fun j hj => ?_⟩
      rw [hpc] at hj
      cases hj
  | hit hpc hi =>
      refine ⟨rfl, _, rfl, fun j hj => ?_⟩
      cases hj
      exact hi
  | _ => exact ⟨rfl, _, rfl, fun j hj => by cases hj⟩

/-- **The step lemma.** -/
theorem SlotInv.preserved (h : SlotInv n w) (hstep : step w a = some w') : SlotInv n w' := by
  cases step_cases hstep with
  | start | crash | joinReply | connect | destroy | relaunch | deliverEntry | deliverAck =>
      exact ⟨h.size, h.slot⟩
  | submit =>
      refine ⟨h.size, fun c hc j hj => ?_⟩
      rcases List.mem_append.mp hc with hold | hnew
      · exact h.slot c hold j hj
      · obtain rfl := List.mem_singleton.mp hnew
        cases hj
  | call hc _ _ hcall =>
      obtain ⟨hsize, c', hcalls, hslot⟩ := callStep_slot hcall hc
      refine ⟨hsize.trans h.size, fun c hmem => ?_⟩
      rw [hcalls] at hmem
      rcases List.mem_or_eq_of_mem_set hmem with hold | rfl
      · exact h.slot c hold
      · exact hslot
  | replica _ hrep =>
      obtain ⟨hsize, hcalls, -⟩ := hrep.frame
      refine ⟨hsize.trans h.size, fun c hc => ?_⟩
      rw [hcalls] at hc
      exact h.slot c hc

/-- A round of the sending loop. -/
theorem fits_round {conn : Nat → Option Nat} {j : Nat} (hj : j < maxServerCount) :
    Fits (roundUses i conn j) :=
  fits_cons.mpr ⟨hj, fits_when fun _ => fits_two hj hj⟩

/-- The array of `prepare_peer_array`. -/
theorem fits_peerArray {type : ReqType} (hn : n ≤ maxServerCount) : Fits (peerArrayUses n type) :=
  fits_when fun _ => fits_loop hn

/-- Every step of a call uses slots that exist. -/
theorem SlotInv.fits_call (h : SlotInv n w) (hn : n ≤ maxServerCount) {c : Call} (hc : c ∈ w.calls)
    (stored : Bool) : Fits (callUses w c stored) := by
  have hsize : w.size ≤ maxServerCount := h.size.trans_le hn
  unfold callUses
  split
  next => exact fits_ite (fun _ => fits_nil) fun _ => fits_peerArray hsize
  next j _ => exact fits_when fun hj => fits_round (lt_of_lt_of_le hj hsize)
  next j _ => exact fits_when fun hj => fits_one hj
  next j hpc => exact fits_one (h.slot c hc j hpc)
  next => exact fits_peerArray hsize
  next => exact fits_nil

/-- Every step of the replica thread, if the entry it acks names a server. -/
theorem fits_replica (hn : w.size ≤ maxServerCount) (hi : i < maxServerCount)
    (hnames : ∀ entry, (w.nodes i).pc = .ack entry →
      readLE (w.nodes i).log.entries (entry + offNodeId) 4 < w.size) :
    Fits (replicaUses (w.nodes i) i) := by
  unfold replicaUses
  split
  next => exact fits_one hi
  next entry hpc => exact fits_two (lt_of_lt_of_le (hnames entry hpc) hn) hi
  next => exact fits_nil

/-- Starting RDMA touches the slots of the constant size. -/
theorem fits_launch : Fits launchUses := fits_loop (Nat.le_refl _)

/-- **One step of the consensus code** in a group that fits. -/
theorem SlotInv.fits (h : SlotInv n w) (hn : n ≤ maxServerCount) (hi : i < n)
    (hnames : ∀ entry, (w.nodes i).pc = .ack entry →
      readLE (w.nodes i).log.entries (entry + offNodeId) 4 < w.size) (a : Action) :
    Fits (consensusUses w i a) := by
  have hsize : w.size ≤ maxServerCount := h.size.trans_le hn
  have hself : i < maxServerCount := lt_of_lt_of_le hi hn
  cases a with
  | start | relaunch => exact fits_when fun _ => fits_launch
  | submit j q =>
      refine fits_when fun _ u hu => ?_
      obtain ⟨k, hk, hu⟩ := List.mem_flatMap.mp hu
      exact fits_round (lt_of_lt_of_le (List.mem_range.mp hk) hsize) u hu
  | call id stored =>
      show Fits (match w.calls[id]? with
        | some c => if c.owner = i then callUses w c stored else []
        | none => [])
      split
      next c hc => exact fits_when fun _ => h.fits_call hn (List.mem_of_getElem? hc) stored
      next => exact fits_nil
  | replica j stored hash => exact fits_when fun _ => fits_replica hsize hself hnames
  | crash | joinReply | connect | destroy | deliverEntry | deliverAck => exact fits_nil

/-- In the runs with one leader process and without a wrap-around, the entry a
follower is about to ack names that leader. -/
theorem node_id_of_soleLeader {l p entry : Nat} (h : Reaches step (SoleLeader l p) (World.initial n) w)
    (hpc : (w.nodes i).pc = .ack entry) :
    readLE (w.nodes i).log.entries (entry + offNodeId) 4 = l ∧ l < w.size := by
  have hinv : Inv Request.Short l p w :=
    reaches_inv (Inv.initial n l p) (fun _ _ hok => hok) (.inl fun _ hq => hq) h
  obtain ⟨k, -, hentry, hseen⟩ := hinv.worksOn (.inl hpc)
  have hrep := hinv.replica i fun hboth => hinv.seen_ne hseen hboth.1
  obtain ⟨q, -, -, hbytes, -⟩ := hrep.mem.headBytes (hinv.writeBytes i) hseen
  have hnode := hbytes.nodeId
  rw [readLE_entryAt, ← hentry] at hnode
  obtain ⟨e, q', hpost, -⟩ := hseen
  obtain ⟨c, hc, -⟩ := (hinv.write k i e hpost.write).posted
  refine ⟨hnode, (hinv.group fun hnil => ?_).1⟩
  rw [hnil] at hc
  cases hc

end Consensus

/-! ## §4. The election. -/

/-- The next step of the callback that server `i` of `n` is in: besides its own slots
and endpoints, it addresses its slot at a peer. -/
def callbackUses (n i : Nat) (s : Election.Server) : List Use :=
  match s.pc with
  | .beat j => if j < n ∧ j ≠ i then [(.servers, j), (.hb, i)] else []
  | .request j =>
      if j < n ∧ j ≠ i ∧ j ≠ Election.initLeader then [(.servers, j), (.voteReq, i % 256)] else []
  | .count j votes =>
      if j < n then if j ≠ i then [(.voteAck, j)] else []
      -- the votes are read once more to be printed
      else if n / 2 + 1 ≤ votes then each .voteAck ((List.range n).filter (· ≠ i)) else []
  | .scan j _ => if j < n ∧ j ≠ i then [(.voteReq, j)] else []
  | .choose j _ _ => if j < n then [(.voteReq, j)] else []
  | .ack => [(.servers, Election.sidGetIdx s.sid), (.voteAck, i % 256)]
  | .idle => []

/-- What server `i` of `n` uses in a step; `n` is the `uint8_t size` of the loops. -/
def electionUses (n i : Nat) (s : Election.Server) : Election.Event → List Use
  | .hbReceive =>
      if s.pc = .idle ∧ s.timer = some .receive ∧ i ≠ Election.initLeader then
        each .hb ((List.range n).filter (· ≠ i)) ++
          -- `start_election` and the beginning of `rc_send_vote_request`
          if (List.range n).any fun j => j != i && s.hb j != 0 then []
          else each .voteAck (List.range n) ++ [(.voteReq, i % 256)]
      else []
  | .run => callbackUses n i s
  | .hbSend | .poll | .logMoves _ => []

section Election
open RdmaPaxos.Election
variable {n i : Nat} {s s' : Server} {e : Effect} {ev : Event} {g g' : Group} {a : Nat × Event}

/-- The SIDs a server holds carry indices of servers. -/
structure IdxInv (n : Nat) (s : Server) : Prop where
  sid : sidGetIdx s.sid < n
  slot : ∀ j, sidGetIdx (s.voteReq j).sid < n
  best : ∀ j highest best, s.pc = .choose j highest best → sidGetIdx best.sid < n

/-- The leader bit is none of the index. -/
theorem sidGetIdx_sidSetL (sid : Nat) : sidGetIdx (sidSetL sid) = sidGetIdx sid := by
  rw [sidGetIdx_eq, sidGetIdx_eq, sidSetL_eq]
  split <;> omega

/-- The index put into a SID is the one got out of it. -/
theorem sidGetIdx_sidSetIdx {idx : Nat} (sid : Nat) (h : idx < 256) :
    sidGetIdx (sidSetIdx sid idx) = idx := by
  rw [sidGetIdx_eq, sidSetIdx_eq sid h]
  omega

/-- Clearing a slot leaves an index of the group. -/
theorem IdxInv.drop (h : IdxInv n s) (hpos : 0 < n) (j k : Nat) :
    sidGetIdx ((s.drop j).voteReq k).sid < n := by
  show sidGetIdx (Function.update s.voteReq j { s.voteReq j with sid := 0 } k).sid < n
  by_cases hkj : k = j
  · rw [hkj, Function.update_self]
    show sidGetIdx 0 < n
    exact hpos
  · rw [Function.update_of_ne hkj]
    exact h.slot k

/-- What a server does to its own SIDs. -/
theorem IdxInv.act (h : IdxInv n s) (hi : i < n) (hn : n ≤ 256) (hact : Act n i s ev s' e) :
    IdxInv n s' := by
  -- an own index survives the eight bits it has in a SID
  have hown : ∀ sid, sidGetIdx (sidSetIdx sid i) < n := fun sid => by
    rw [sidGetIdx_sidSetIdx sid (lt_of_lt_of_le hi hn)]
    exact hi
  have hpos : 0 < n := Nat.zero_lt_of_lt hi
  cases hact with
  | ignored => exact h
  | heard | logMoves => exact ⟨h.sid, h.slot, h.best⟩
  | elect =>
      refine ⟨hown _, fun j => ?_, fun _ _ _ hpc => by cases hpc⟩
      show sidGetIdx (Function.update s.voteReq i ⟨candidateSid s.sid i, logIndex i, 1⟩ j).sid < n
      by_cases hji : j = i
      · rw [hji, Function.update_self]
        exact hown _
      · rw [Function.update_of_ne hji]
        exact h.slot j
  | hbSend | startCount | startScan | finish | beat | request | count | scanOwn | scanBetter | ack =>
      exact ⟨h.sid, h.slot, fun _ _ _ hpc => by cases hpc⟩
  | won =>
      refine ⟨?_, h.slot, fun _ _ _ hpc => by cases hpc⟩
      show sidGetIdx (sidSetL s.sid) < n
      rw [sidGetIdx_sidSetL]
      exact h.sid
  | scanDrop => exact ⟨h.sid, h.drop hpos _, fun _ _ _ hpc => by cases hpc⟩
  | scanned =>
      refine ⟨h.sid, h.slot, fun _ _ best hpc => ?_⟩
      cases hpc
      rw [sidGetIdx_sidSetL]
      exact h.sid
  | chooseDrop hpc =>
      refine ⟨h.sid, h.drop hpos _, fun _ _ best hpc' => ?_⟩
      cases hpc'
      exact h.best _ _ _ hpc
  | chooseKeep hpc =>
      refine ⟨h.sid, h.slot, fun _ _ best hpc' => ?_⟩
      cases hpc'
      exact h.best _ _ _ hpc
  | chooseTake hpc =>
      refine ⟨h.sid, h.drop hpos _, fun _ _ best hpc' => ?_⟩
      cases hpc'
      exact h.slot _
  | raise => exact ⟨hown _, h.slot, fun _ _ _ hpc => by cases hpc⟩
  | vote hpc =>
      -- a voter takes over the SID of its candidate
      exact ⟨h.best _ _ _ hpc, h.slot, fun _ _ _ hpc => by cases hpc⟩

/-- The only SIDs written to a peer are those of vote requests. -/
theorem IdxInv.receive (h : IdxInv n s) {j : Nat} {wr : Write}
    (hwr : ∀ r, wr = .voteReq r → sidGetIdx r.sid < n) : IdxInv n (s.receive j wr) := by
  cases wr with
  | hb | voteAck => exact ⟨h.sid, h.slot, h.best⟩
  | voteReq r =>
      refine ⟨h.sid, fun k => ?_, h.best⟩
      show sidGetIdx (Function.update s.voteReq j r k).sid < n
      by_cases hkj : k = j
      · rw [hkj, Function.update_self]
        exact hwr r rfl
      · rw [Function.update_of_ne hkj]
        exact h.slot k

/-- A vote request that is sent names a server of the group. -/
theorem IdxInv.write (h : IdxInv n s) (hact : Act n i s ev s' e) {j : Nat} {wr : Write}
    (he : e.write = some (j, wr)) : ∀ r, wr = .voteReq r → sidGetIdx r.sid < n := by
  rintro r rfl
  cases hact with
  | beat _ hwrite => cases (hwrite _ _ he).2.2
  | request _ hwrite =>
      cases (hwrite _ _ he).2.2
      exact h.slot i
  | _ => cases he

/-- **The step lemma**: every SID names a server of the group. -/
theorem idxInv_step (h : ∀ k, IdxInv n (g.servers k)) (hsize : g.size = n) (hn : n ≤ 256)
    (hstep : Election.step g a = some g') : g'.size = n ∧ ∀ k, IdxInv n (g'.servers k) := by
  obtain ⟨s', e, hi, hact, rfl⟩ := Election.step_cases hstep
  rw [hsize] at hi hact
  have hset : ∀ k, IdxInv n ((g.setServer a.1 s').servers k) := by
    intro k
    show IdxInv n (Function.update g.servers a.1 s' k)
    by_cases hk : k = a.1
    · rw [hk, Function.update_self]
      exact (h a.1).act hi hn hact
    · rw [Function.update_of_ne hk]
      exact h k
  refine ⟨after_size.trans hsize, fun k => ?_⟩
  rw [after_servers]
  cases hw : e.write with
  | none => exact hset k
  | some target =>
      obtain ⟨j, wr⟩ := target
      show IdxInv n (Function.update (g.setServer a.1 s').servers j _ k)
      by_cases hkj : k = j
      · rw [hkj, Function.update_self]
        exact (hset j).receive ((h a.1).write hact hw)
      · rw [Function.update_of_ne hkj]
        exact hset k

/-- **The run lemma.** -/
theorem idxInv_reaches {ok : Group → Nat × Event → Prop} (hpos : 0 < n) (hn : n ≤ 256)
    (h : Reaches Election.step ok (Group.initial n) g) : ∀ k, IdxInv n (g.servers k) := by
  refine (h.invariant (I := fun g => g.size = n ∧ ∀ k, IdxInv n (g.servers k)) ⟨rfl, fun k => ?_⟩
    fun _ _ _ hinv _ hs => idxInv_step hinv.2 hinv.1 hn hs).2
  have hfirst : sidGetIdx (Server.begin k).sid = 0 := by
    rw [begin_sid]
    decide
  refine ⟨hfirst.trans_lt hpos, fun _ => ?_, fun _ _ _ hpc => by cases hpc⟩
  show sidGetIdx 0 < n
  exact hpos

/-- **One step of the election** in a group that fits. -/
theorem IdxInv.fits (h : IdxInv n s) (hn : n ≤ maxServerCount) (hi : i < n) (ev : Event) :
    Fits (electionUses n i s ev) := by
  have hlt : ∀ {j}, j < n → j < maxServerCount := fun hj => lt_of_lt_of_le hj hn
  have hself : i % 256 < maxServerCount := lt_of_le_of_lt (Nat.mod_le i 256) (hlt hi)
  have hothers : ∀ t, Fits (each t ((List.range n).filter (· ≠ i))) := fun t =>
    fits_each fun j hj => hlt (List.mem_range.mp (List.mem_filter.mp hj).1)
  cases ev with
  | hbSend | poll | logMoves => exact fits_nil
  | hbReceive =>
      refine fits_when fun _ => fits_append.mpr ⟨hothers _, fits_ite (fun _ => fits_nil) fun _ => ?_⟩
      exact fits_append.mpr ⟨fits_loop hn, fits_one hself⟩
  | run =>
      show Fits (callbackUses n i s)
      unfold callbackUses
      split
      next j _ => exact fits_when fun hj => fits_two (hlt hj.1) (hlt hi)
      next j _ => exact fits_when fun hj => fits_two (hlt hj.1) hself
      next j votes _ =>
        refine fits_ite (fun hj => fits_when fun _ => fits_one (hlt hj)) fun _ => ?_
        exact fits_when fun _ => hothers _
      next j _ _ => exact fits_when fun hj => fits_one (hlt hj.1)
      next j _ _ _ => exact fits_when fun hj => fits_one (hlt hj)
      next => exact fits_two (hlt h.sid) hself
      next => exact fits_nil

end Election

/-! ## §5. The membership messages. -/

section Membership
open RdmaPaxos.Ud
variable {s : Server} {d : Datagram} {e : Effects}

/-- What `event` takes from a message as an index of an endpoint, case after case: none of
them ends in a `break`. -/
def eventIndices (s : Server) (d : Datagram) : List Nat :=
  if d.own then []
  else
    match d.type with
    | some .join => if s.isLeader then [d.syn.idx, d.syn.idx, d.repIdx] else []
    | some .rcSyn => [d.syn.idx, d.syn.idx, d.repIdx]
    | some .rcSynack => [d.syn.idx, d.repIdx]
    | some .cfgReply => [d.repIdx]
    | some .destroy => [d.repIdx]
    | none => []

/-- What it uses: besides these, `rc_connect_server` takes the index as a `uint8_t`, and from
CFG_REPLY on `ud_exchange_rc_info` goes over the group. -/
def eventUses (s : Server) (d : Datagram) : List Use :=
  each .servers (eventIndices s d) ++
    match d.type, eventIndices s d with
    | none, _ | some .destroy, _ | _, [] => []
    | some .cfgReply, _ => each .servers (List.range s.size)
    | _, _ => (.servers, d.syn.idx % 256) :: each .servers (List.range s.size)

/-- The datagram has ids of servers where the cases it runs through look for one.  Of an
RC_SYN or RC_SYNACK this says that the low half of an address is small. -/
def NamesServers (d : Datagram) : Prop :=
  match d.type with
  | some .join | some .rcSyn | some .rcSynack => d.syn.idx < maxServerCount ∧ d.repIdx < maxServerCount
  | some .cfgReply | some .destroy => d.repIdx < maxServerCount
  | none => True

/-- A datagram that names servers leads to slots that exist. -/
theorem NamesServers.indices (h : NamesServers d) : ∀ k ∈ eventIndices s d, k < maxServerCount := by
  unfold NamesServers at h
  unfold eventIndices
  cases d.own with
  | true => exact fun _ hk => (List.not_mem_nil hk).elim
  | false =>
      cases ht : d.type with
      | none => exact fun _ hk => (List.not_mem_nil hk).elim
      | some type =>
          rw [ht] at h
          cases type with
          | join =>
              dsimp only at h ⊢
              cases s.isLeader with
              | true => simp [h.1, h.2]
              | false => exact fun _ hk => (List.not_mem_nil hk).elim
          | rcSyn | rcSynack => simpa using h
          | cfgReply | destroy => simpa using h

/-- **One datagram** in a group that fits. -/
theorem NamesServers.fits (h : NamesServers d) (hn : s.size ≤ maxServerCount) : Fits (eventUses s d) := by
  refine fits_append.mpr ⟨fits_each h.indices, ?_⟩
  unfold NamesServers at h
  split
  next => exact fits_nil
  next => exact fits_nil
  next => exact fits_nil
  next => exact fits_loop hn
  next hnone hdestroy hreply _ =>
    refine fits_cons.mpr ⟨lt_of_le_of_lt (Nat.mod_le _ 256) ?_, fits_loop hn⟩
    cases ht : d.type with
    | none => exact absurd ht hnone
    | some type =>
        rw [ht] at h
        cases type with
        | join | rcSyn | rcSynack => exact h.1
        | cfgReply => exact absurd ht hreply
        | destroy => exact absurd ht hdestroy

/-- **Any number of datagrams**, whoever sends them. -/
theorem fits_datagrams {ds : List Datagram} (hds : ∀ d ∈ ds, NamesServers d) (hn : s.size ≤ maxServerCount) :
    ∀ v ∈ visits handled s ds, Fits (eventUses v.1 v.2) := by
  induction ds generalizing s with
  | nil => exact fun _ hv => (List.not_mem_nil hv).elim
  | cons d ds ih =>
      obtain ⟨hd, hds⟩ := List.forall_mem_cons.mp hds
      refine List.forall_mem_cons.mpr ⟨hd.fits hn, ih hds ?_⟩
      rw [untouched_size.handled]
      exact hn

/-- A `DESTROY` is handled if the server it names is in the table. -/
theorem caseDestroy_isSome : (caseDestroy s d e).isSome = true ↔ d.repIdx < s.len := by
  unfold caseDestroy
  split
  next h => exact ⟨fun _ => h, fun _ => rfl⟩
  next h => exact ⟨fun hnone => (by cases hnone), fun hlt => absurd hlt h⟩

/-- An `RC_SYNACK` is handled if both servers it names are. -/
theorem caseRcSynack_isSome : (caseRcSynack s d e).isSome = true
    ↔ d.syn.idx < s.len ∧ d.repIdx < s.len := by
  unfold caseRcSynack
  split
  next h =>
    have hlen : ((s.rcSynack d.syn).joinReply d.repIdx).len = s.len := untouched_len.establish ..
    unfold caseCfgReply
    rw [caseDestroy_isSome, hlen, and_iff_right h]
  next h => exact ⟨fun hnone => (by cases hnone), fun hlt => absurd hlt.1 h⟩

/-- And so is an `RC_SYN`. -/
theorem caseRcSyn_isSome : (caseRcSyn s d e).isSome = true
    ↔ d.syn.idx < s.len ∧ d.repIdx < s.len := by
  unfold caseRcSyn
  split
  next h =>
    have hlen : (s.rcSyn d.syn).1.len = s.len := untouched_len.establish ..
    rw [caseRcSynack_isSome, hlen]
  next h => exact ⟨fun hnone => (by cases hnone), fun hlt => absurd hlt.1 h⟩

/-- `event` stays inside the table of endpoints exactly if all these indices do. -/
theorem event_isSome_iff : (event s d).isSome = true ↔ ∀ k ∈ eventIndices s d, k < s.len := by
  unfold event eventIndices
  split
  next => simp
  next =>
    cases d.type with
    | none => simp
    | some type =>
        cases type with
        | join =>
            dsimp only
            unfold caseJoin
            split
            · simp [caseRcSyn_isSome]
            · simp
        | rcSyn => simp [caseRcSyn_isSome]
        | rcSynack => simp [caseRcSynack_isSome]
        | cfgReply =>
            have hlen : (s.joinReply d.repIdx).len = s.len := rfl
            simp [caseCfgReply, caseDestroy_isSome, hlen]
        | destroy => simp [caseDestroy_isSome]

/-- The low half of the address of the sender's log lies where DESTROY has its index. -/
theorem repIdx_eq (d : Datagram) : d.repIdx = d.syn.raddr % 2 ^ 32 :=
  (readLE_mod d.buf 16 (by decide : 4 ≤ 8)).symm

/-- **An RC_SYN or RC_SYNACK falls through to the handler of DESTROY**, which takes the
low half of the sender's log address for an index: in a group of any size the table
is left unless that address ends in a small number. -/
theorem rcSyn_uses_address (hown : d.own = false)
    (htype : d.type = some .rcSyn ∨ d.type = some .rcSynack) (hbig : s.len ≤ d.syn.raddr % 2 ^ 32) :
    event s d = none := by
  have hmem : d.syn.raddr % 2 ^ 32 ∈ eventIndices s d := by
    unfold eventIndices
    rw [if_neg (by rw [hown]; decide), ← repIdx_eq]
    rcases htype with h | h <;> rw [h] <;> simp
  rw [← Option.not_isSome_iff_eq_none, event_isSome_iff]
  exact fun hall => absurd (hall _ hmem) (Nat.not_lt.mpr hbig)

end Membership

/-! ## §6. Ack slots for a quorum. -/

/-- `reached_quorum`, whose second parameter is an `int`. -/
def reachedQuorumInt (bitMap : Nat) (groupSize : Int) : Bool :=
  decide (groupSize.tdiv 2 + 1 ≤ popcount bitMap)

/-- The `int` that `comp->group_size` is converted to. -/
def NodeSettings.sizeInt (nd : NodeSettings) : Int := nd.groupSize.toBitVec.toInt

/-- The bit map of node `me` when the recheck loop has found the acks of these servers
in their slots. -/
def ackMap (me : Nat) (slots : List Nat) : Nat := slots.foldl (fun b j => b ||| 1 <<< j) (1 <<< me)

/-- There are `group_size/2+1` ack slots, of servers of the group, with which the
quorum is reached. -/
def QuorumSlots (nd : NodeSettings) : Prop :=
  ∃ slots : List Nat, slots.Nodup ∧ (∀ j ∈ slots, j < maxServerCount ∧ j < nd.groupSize.toNat)
    ∧ nd.sizeInt.tdiv 2 + 1 ≤ slots.length
    ∧ reachedQuorumInt (ackMap nd.nodeId.toNat slots) nd.sizeInt = true

/-- Without a sign, the test of the quorum is the one of the consensus model. -/
theorem reachedQuorumInt_natCast (bitMap n : Nat) :
    reachedQuorumInt bitMap n = reachedQuorum bitMap n := by
  unfold reachedQuorumInt reachedQuorum
  rw [decide_eq_decide, Int.tdiv_eq_ediv_of_nonneg (Int.natCast_nonneg n)]
  omega

/-- A size below 2³¹ is read as it is. -/
theorem sizeInt_eq {nd : NodeSettings} (h : nd.groupSize.toNat < 2 ^ 31) :
    nd.sizeInt = nd.groupSize.toNat := BitVec.toInt_eq_toNat_of_lt (by
      show 2 * nd.groupSize.toNat < 2 ^ 32
      omega)

/-- In a group that fits, the acks of everybody are enough. -/
theorem everybody_acks : ∀ n ≤ maxServerCount, ∀ i < n,
    reachedQuorum (ackMap i (List.range n)) n = true := by decide

/-- Enough slots for every group that fits the constant. -/
theorem quorumSlots_of_le {nd : NodeSettings} (hid : nd.nodeId < nd.groupSize)
    (hn : nd.groupSize.toNat ≤ maxServerCount) : QuorumSlots nd := by
  have hpos : nd.nodeId.toNat < nd.groupSize.toNat := hid
  have hint : nd.sizeInt = nd.groupSize.toNat := sizeInt_eq (lt_of_le_of_lt hn (by decide))
  refine ⟨List.range nd.groupSize.toNat, List.nodup_range, fun j hj => ?_, ?_, ?_⟩
  · have hlt := List.mem_range.mp hj
    exact ⟨lt_of_lt_of_le hlt hn, hlt⟩
  · rw [hint, List.length_range, Int.tdiv_eq_ediv_of_nonneg (Int.natCast_nonneg _)]
    omega
  · rw [hint, reachedQuorumInt_natCast]
    exact everybody_acks _ hn _ hpos

/-- The entry has seven ack slots and no more. -/
theorem QuorumSlots.quorum_le {nd : NodeSettings} (h : QuorumSlots nd) :
    nd.sizeInt.tdiv 2 + 1 ≤ maxServerCount := by
  obtain ⟨slots, hnodup, hslot, hlen, -⟩ := h
  have hsub : slots ⊆ List.range maxServerCount := fun j hj => List.mem_range.mpr (hslot j hj).1
  have hle : slots.length ≤ maxServerCount := by
    have := (List.subperm_of_subset hnodup hsub).length_le
    rwa [List.length_range] at this
  omega

/-! ## §7. Accepted configurations. -/

/-- In every run of a node with this configuration, every index it uses is inside its
table: while one process leads, in one lap of the logs; in the election; and whatever
datagrams with ids of servers it receives. -/
structure TablesFit (nd : NodeSettings) : Prop where
  consensus : ∀ l p w a, Reaches step (SoleLeader l p) (World.initial nd.groupSize.toNat) w →
    Fits (consensusUses w nd.nodeId.toNat a)
  election : ∀ g ev,
    Reaches Election.step (fun _ _ => True) (Election.Group.initial (nd.groupSize.toNat % 256)) g →
    Fits (electionUses (nd.groupSize.toNat % 256) nd.nodeId.toNat (g.servers nd.nodeId.toNat) ev)
  membership : ∀ (s : Ud.Server) (ds : List Ud.Datagram), s.size = nd.groupSize.toNat →
    (∀ d ∈ ds, NamesServers d) → ∀ v ∈ visits Ud.handled s ds, Fits (eventUses v.1 v.2)

/-- Every table fits a group that fits the constant. -/
theorem tablesFit_of_le {nd : NodeSettings} (hid : nd.nodeId < nd.groupSize)
    (hn : nd.groupSize.toNat ≤ maxServerCount) : TablesFit nd := by
  have hi : nd.nodeId.toNat < nd.groupSize.toNat := hid
  have hmod : nd.groupSize.toNat % 256 = nd.groupSize.toNat :=
    Nat.mod_eq_of_lt (lt_of_le_of_lt hn (by decide))
  constructor
  case consensus =>
    intro l p w a h
    have hinv : SlotInv nd.groupSize.toNat w :=
      h.invariant (SlotInv.initial _) fun _ _ _ hinv _ hs => hinv.preserved hs
    refine hinv.fits hn hi (fun entry hpc => ?_) a
    obtain ⟨hnode, hlt⟩ := node_id_of_soleLeader h hpc
    rw [hnode]
    exact hlt
  case election =>
    intro g ev h
    rw [hmod] at h ⊢
    have hinv := idxInv_reaches (Nat.zero_lt_of_lt hi) (hn.trans (by decide)) h
    exact (hinv _).fits hn hi ev
  case membership =>
    intro s ds hs hds
    exact fits_datagrams hds (hs.trans_le hn)

/-- Node `i` of a group of `n` is started in mode `'s'` and may submit. -/
theorem exists_submitting {n i : Nat} (hi : i < n) : ∃ w,
    Reaches step (SoleLeader i 1) (World.initial n) w ∧ w.size = n ∧ (w.nodes i).up = true
      ∧ (w.nodes i).leaderId = i := by
  have hstep : step (World.initial n) (.start i true)
      = some ((World.initial n).setNode i (Node.boot .down i true)) := if_pos ⟨hi, rfl⟩
  have hnode : ((World.initial n).setNode i (Node.boot .down i true)).nodes i = Node.boot .down i true :=
    Function.update_self ..
  refine ⟨_, Reaches.single (a := .start i true) trivial hstep, rfl, ?_, ?_⟩
  · rw [hnode]
    rfl
  · rw [hnode]
    rfl

/-- The first loop of a submission looks at the endpoint of every configured server. -/
theorem mem_submit_uses {w : World} {i j : Nat} (hup : (w.nodes i).up = true)
    (hlead : (w.nodes i).leaderId = i) (hj : j < w.size) (q : Request) :
    (.servers, j) ∈ consensusUses w i (.submit i q) := by
  rw [consensusUses, if_pos ⟨rfl, hup, hlead⟩]
  exact List.mem_flatMap.mpr ⟨j, List.mem_range.mpr hj, List.mem_cons_self⟩

/-- A request without data. -/
def nopRequest : Request := ⟨.nop, ⟨0, fun _ => 0⟩, ⟨0, 0⟩⟩

/-- And no table fits a larger one. -/
theorem le_of_tablesFit {nd : NodeSettings} (hid : nd.nodeId < nd.groupSize) (h : TablesFit nd) :
    nd.groupSize.toNat ≤ maxServerCount := by
  by_contra hgt
  obtain ⟨w, hreach, hsize, hup, hlead⟩ := exists_submitting hid
  have hmem := mem_submit_uses hup hlead (by rw [hsize]; exact Nat.lt_of_not_le hgt) nopRequest
  have hlt := h.consensus _ 1 w (.submit _ nopRequest) hreach _ hmem
  exact Nat.lt_irrefl _ hlt

/-- **Accepted configurations and the tables.**  Whatever configuration file
`consensus_read_config` has accepted, the node started from it keeps inside its tables
in every run with one leader process, in one lap, and with datagrams that name servers,
and finds enough ack slots for a quorum, exactly if the group has at most
`MAX_SERVER_COUNT` servers. -/
theorem accepted_config_fits_iff {curNode nd : NodeSettings} {file : Option ConfigFile}
    (h : consensusReadConfig curNode file = .ok nd) :
    (TablesFit nd ∧ QuorumSlots nd) ↔ nd.groupSize.toNat ≤ maxServerCount := by
  have hid := nodeId_lt_of_accepted h
  constructor
  · rintro ⟨htables, -⟩
    exact le_of_tablesFit hid htables
  · intro hn
    exact ⟨tablesFit_of_le hid hn, quorumSlots_of_le hid hn⟩

/-- A file with an element for each of `n` servers. -/
def groupFile (n : Nat) : ConfigFile where
  groupSize := some (UInt32.ofNat n)
  consensusConfig := some (List.replicate n ⟨some "127.0.0.1", some 1, some 1, some "node_test"⟩)

/-- Node `i`, before the file is read. -/
def blankNode (i : UInt32) : NodeSettings := ⟨i, 0, "", 0, 0, ""⟩

/-- The group of three of the file that comes with the program. -/
theorem accepted_config_fits_iff_three : ∃ nd, consensusReadConfig (blankNode 2) (some (groupFile 3)) = .ok nd
    ∧ TablesFit nd ∧ QuorumSlots nd :=
  ⟨_, rfl, (@accepted_config_fits_iff (blankNode 2) _ (some (groupFile 3)) rfl).mpr
    (by decide)⟩

/-- **Seventeen nodes**, the largest group the documentation speaks of: the
configuration is accepted, the first submission looks at the endpoint of server 16, and
no ack slots make a quorum. -/
theorem seventeen_nodes_overrun : ∃ nd w q,
    consensusReadConfig (blankNode 0) (some (groupFile 17)) = .ok nd
    ∧ Reaches step (SoleLeader 0 1) (World.initial nd.groupSize.toNat) w
    ∧ (.servers, 16) ∈ consensusUses w nd.nodeId.toNat (.submit 0 q)
    ∧ ¬ QuorumSlots nd := by
  obtain ⟨w, hreach, hsize, hup, hlead⟩ := exists_submitting (n := 17) (i := 0) (by decide)
  refine ⟨_, w, nopRequest, rfl, hreach,
    mem_submit_uses hup hlead (by rw [hsize]; decide) _, fun hq => ?_⟩
  exact absurd hq.quorum_le (by decide)

end RdmaPaxos.Config
