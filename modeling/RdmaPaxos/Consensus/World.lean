/-
  RdmaPaxos.Consensus.World
  ─────────────────────────
  **THE GROUP OF NODES AS A STEP FUNCTION.**

  A world holds the processes, their databases, every invocation of
  `leader_handle_submit_req` ever made (a `Call`, with its program counter),
  and the RDMA writes posted between the nodes.  One action is one atomic step
  of one thread of one process, or some more bytes of one RDMA write becoming
  visible at its target, in increasing address order.

  A step that C leaves undefined (an access outside the log buffer, a shift
  past the width of `int`, a server index past the table) has no successor.

  Loads of memory that other nodes write into, and the steps they are made in:

    • a call reads the stamp of an ack slot in one step and its node id in the
      next (lines 223, 224), so the id may arrive in between; the two halves of the
      stamp are one step, since bytes that have arrived stay;
    • a follower reads the size of the entry in front of it (line 273), the size once
      more for its length (line 275) and the last byte of that length (line 276) in
      three steps, so more of the entry may arrive between any two of them;
    • behind the marker test it reads the fields of the entry, which lie in front of
      the byte it found and are all there, and the payload: lines 283–324 are one
      step.  If the length came from the whole size, the payload is there too and one
      step says what C does; if not, C may even store a mixture of two moments.
-/
import RdmaPaxos.Consensus.Entry
import Mathlib.Logic.Function.Basic

namespace RdmaPaxos

open RdmaPaxos.ByteMemory

/-! ## §1. State. -/

/-- Program counter of a thread inside `leader_handle_submit_req`, after it has
left the critical section. -/
inductive CallPc where
  /-- about to read `highest_committed_vs` (line 179) -/
  | sample
  /-- about to fill the entry in (line 182) -/
  | fill
  /-- about to call `store_record` (line 193) -/
  | store
  /-- about to write the marker (line 202) -/
  | mark
  /-- in the post loop (line 209), at server `i` -/
  | post (i : Nat)
  /-- in the recheck loop (line 221), about to compare the stamp in slot `i` -/
  | recheck (i : Nat)
  /-- stamp `i` matched, about to read the node id of slot `i` (line 224) -/
  | ackId (i : Nat)
  /-- about to test `reached_quorum` (line 227) -/
  | quorum
  /-- at the spin-wait (line 229) -/
  | spin
  /-- past the spin-wait, about to read `highest_committed_vs` (line 230) -/
  | incRead
  /-- about to write `v + 1` back -/
  | incWrite (v : UInt32)
  /-- returned after the increment -/
  | done
  /-- returned because `store_record` failed -/
  | failed
  deriving Repr, DecidableEq

/-- One invocation of `leader_handle_submit_req`. -/
structure Call where
  /-- the node it runs on, and the log its pointers point into -/
  owner : Nat
  region : Nat
  req : Request
  /-- the locals `next`, `entry` (as an offset) and `offset` -/
  next : ViewStamp
  entry : Nat
  offset : Nat
  bitMap : Nat
  pc : CallPc

/-- Program counter of `handle_accept_req`; `entry` is its local pointer. -/
inductive ReplicaPc where
  /-- at the head of the loop (lines 267–273) -/
  | poll
  /-- the size was non-zero, about to read it again for `log_entry_len` (line 275) -/
  | measure (entry : Nat)
  /-- about to look at the last of `len` bytes (line 276) -/
  | marker (entry len : Nat)
  /-- the marker was there (lines 283–324) -/
  | accept (entry : Nat)
  /-- about to post the ack (line 345) -/
  | ack (entry : Nat)
  /-- about to compare `req_canbe_exed` (line 347) -/
  | commit (entry : Nat)
  /-- in the apply loop (line 351) -/
  | apply (entry index last : Nat)
  deriving Repr, DecidableEq

/-- One process.  `region` names the memory `log_new` returned: remote
addresses exchanged before it was allocated do not reach it. -/
structure Node where
  up : Bool
  region : Nat
  leaderId : Nat
  seen : ViewStamp
  committed : ViewStamp
  log : DareLog
  /-- `servers[j].ep`: the peer's region when `rc_connected` is set -/
  conn : Nat → Option Nat
  pc : ReplicaPc
  /-- the entries accepted from this log: stamp and contents -/
  accepted : List (ViewStamp × Record)
  /-- the indices passed to `ucb`, each with what the store held under it -/
  applied : List (Nat × Option Buf)

/-- An RDMA write of a log entry: its target offset in the entries, its bytes,
and how many of them are visible. -/
structure EntryWrite where
  region : Nat
  off : Nat
  len : Nat
  byte : Nat → UInt8
  visible : Nat

/-- An RDMA write of an `accept_ack`. -/
structure AckWrite where
  src : Nat
  dst : Nat
  region : Nat
  off : Nat
  byte : Nat → UInt8
  visible : Nat

/-- The group: its nodes, their databases, the calls of `leader_handle_submit_req`, and the
RDMA writes on their way. -/
structure World where
  /-- `group_size` -/
  size : Nat
  nodes : Nat → Node
  /-- the databases: node, record number -/
  db : Nat → Nat → Option Buf
  calls : List Call
  /-- the entry write of a call to a server -/
  entryWrites : Nat → Nat → Option EntryWrite
  ackWrites : List AckWrite

/-- Node `i` becomes `nd`. -/
def World.setNode (w : World) (i : Nat) (nd : Node) : World :=
  { w with nodes := Function.update w.nodes i nd }

/-- Call `id` becomes `c`. -/
def World.setCall (w : World) (id : Nat) (c : Call) : World :=
  { w with calls := w.calls.set id c }

/-- The entry write of call `id` to server `i` becomes `e`. -/
def World.setEntryWrite (w : World) (id i : Nat) (e : EntryWrite) : World :=
  { w with
    entryWrites := Function.update w.entryWrites id
      (Function.update (w.entryWrites id) i (some e)) }

/-- Ack write `a` becomes `e`. -/
def World.setAckWrite (w : World) (a : Nat) (e : AckWrite) : World :=
  { w with ackWrites := w.ackWrites.set a e }

/-- The entries of the node's log become `m`. -/
def Node.setEntries (nd : Node) (m : Mem) : Node :=
  { nd with log := { nd.log with entries := m } }

/-- `store_record` on node `i`. -/
def World.storeRecord (w : World) (i key : Nat) (b : Buf) : World :=
  { w with db := Function.update w.db i (Function.update (w.db i) key (some b)) }

/-! ## §2. Starting, stopping, joining. -/

/-- A process that is not running. -/
def Node.down : Node where
  up := false
  region := 0
  leaderId := 9999
  seen := ⟨1, 0⟩
  committed := ⟨1, 0⟩
  log := logNew
  conn := fun _ => none
  pc := .poll
  accepted := []
  applied := []

/-- `system_initialize`, `init_consensus_comp` and `launch_rdma` on node `i`,
where the process before it was `nd`. -/
def Node.boot (nd : Node) (i : Nat) (modeS : Bool) : Node where
  up := true
  region := nd.region + 1
  leaderId := if modeS then i else 9999
  seen := ⟨1, 0⟩
  committed := ⟨1, 0⟩
  log := logNew
  conn := fun _ => none
  pc := .poll
  accepted := []
  applied := []

/-- `reconnect_inner`: a fresh log and fresh endpoints under the same process. -/
def Node.relaunch (nd : Node) : Node :=
  { nd with region := nd.region + 1, log := logNew, conn := fun _ => none, accepted := [] }

/-! ## §3. The critical section of `leader_handle_submit_req`. -/

/-- `get_next_view_stamp`. -/
def getNextViewStamp (nd : Node) : ViewStamp :=
  ⟨nd.seen.viewId, nd.seen.reqId + 1⟩

/-- Lines 130–177 on node `i`, for an entry inside the log buffer and a group
that fits the server tables. -/
def World.submit (w : World) (i : Nat) (q : Request) : Option World :=
  let nd := w.nodes i
  let alloc := allocEntry nd.log q.data.size
  if nd.up = true ∧ nd.leaderId = i ∧ w.size ≤ maxServerCount
      ∧ alloc.1 + sizeofEntry + (q.data.size + 1) ≤ nd.log.len then
    let next := getNextViewStamp nd
    let call : Call :=
      { owner := i, region := nd.region, req := q, next := next, entry := alloc.1
        offset := publishOffset alloc.2.tailOff, bitMap := 0, pc := .sample }
    some { w.setNode i { nd with seen := ⟨nd.seen.viewId, next.reqId⟩, log := alloc.2 } with
      calls := w.calls ++ [call] }
  else none

/-! ## §4. The rest of `leader_handle_submit_req`, one atomic step at a time. -/

/-- `__builtin_popcountl`. -/
def popcount (b : Nat) : Nat := ((List.range 64).filter b.testBit).length

/-- `reached_quorum`. -/
def reachedQuorum (bitMap groupSize : Nat) : Bool :=
  decide (groupSize / 2 + 1 ≤ popcount bitMap)

/-- Line 217: the entry write posted to a server whose log is `region`. -/
def postEntry (m : Mem) (c : Call) (region : Nat) : EntryWrite where
  region := region
  off := c.offset - offsetofEntries
  len := logEntryLen m c.entry
  byte := fun j => m (c.entry + j)
  visible := 0

/-- The next step of call `id`; `stored` is the outcome of `store_record`, if
that is the step. -/
def World.callStep (w : World) (id : Nat) (c : Call) (stored : Bool) : Option World :=
  let nd := w.nodes c.owner
  let m := nd.log.entries
  match c.pc with
  | .sample =>
      some ((w.setNode c.owner
        (nd.setEntries (writeVs m (c.entry + offCanbeExed) nd.committed))).setCall id
          { c with pc := .fill })
  | .fill =>
      some ((w.setNode c.owner
        (nd.setEntries (fillEntry m c.entry c.req c.next c.owner))).setCall id
          { c with pc := .store })
  | .store =>
      if stored then
        some ((w.storeRecord c.owner (vstol c.next) (recordAt m c.entry)).setCall id
          { c with pc := .mark })
      else
        some (w.setCall id { c with pc := .failed })
  | .mark =>
      some ((w.setNode c.owner (nd.setEntries (markEntry m c.entry))).setCall id
        { c with bitMap := 1 <<< c.owner, pc := .post 0 })
  | .post i =>
      if i < w.size then
        match if i = c.owner then none else nd.conn i with
        | none => some (w.setCall id { c with pc := .post (i + 1) })
        | some region =>
            some ((w.setEntryWrite id i (postEntry m c region)).setCall id
              { c with pc := .post (i + 1) })
      else
        some (w.setCall id { c with pc := .recheck 0 })
  | .recheck i =>
      if i < maxServerCount then
        if readVs m (c.entry + acceptAckSize * i) = c.next then
          some (w.setCall id { c with pc := .ackId i })
        else
          some (w.setCall id { c with pc := .recheck (i + 1) })
      else
        some (w.setCall id { c with pc := .quorum })
  | .ackId i =>
      let nodeId := readLE m (c.entry + acceptAckSize * i + 8) 4
      if nodeId < 31 then
        some (w.setCall id { c with bitMap := c.bitMap ||| 1 <<< nodeId, pc := .recheck (i + 1) })
      else none
  | .quorum =>
      if reachedQuorum c.bitMap w.size then
        some (w.setCall id { c with pc := .spin })
      else
        some (w.setCall id { c with pc := .recheck 0 })
  | .spin =>
      if (readVs m (c.entry + offMsgVs)).reqId > nd.committed.reqId + 1 then
        some w
      else
        some (w.setCall id { c with pc := .incRead })
  | .incRead =>
      some (w.setCall id { c with pc := .incWrite nd.committed.reqId })
  | .incWrite v =>
      some ((w.setNode c.owner
        { nd with committed := ⟨nd.committed.viewId, v + 1⟩ }).setCall id
          { c with pc := .done })
  | .done => none
  | .failed => none

/-! ## §5. `handle_accept_req`, one atomic step at a time. -/

/-- The next step of the replica thread of node `i`; `stored` is the outcome of
`store_record` and `hash` the output hash, if the step takes them. -/
def World.replicaStep (w : World) (i : Nat) (stored : Bool) (hash : Nat) : Option World :=
  let nd := w.nodes i
  let m := nd.log.entries
  match nd.pc with
  | .poll =>
      if nd.leaderId ≠ i then
        let off := logGetEntry nd.log nd.log.endOff
        if off + sizeofEntry ≤ nd.log.len then
          some (w.setNode i { nd with
            log := { nd.log with endOff := off }
            pc := if readLE m (off + offDataSize) 8 ≠ 0 then .measure off else .poll })
        else none
      else some w
  | .measure entry => some (w.setNode i { nd with pc := .marker entry (logEntryLen m entry) })
  | .marker entry len =>
      if 0 < len ∧ entry + len ≤ nd.log.len then
        some (w.setNode i { nd with
          pc := if m (entry + len - 1) = dummyEnd then .accept entry else .poll })
      else none
  | .accept entry =>
      -- the two view checks (lines 283–291) are empty and change nothing
      let vs := readVs m (entry + offMsgVs)
      let nd' : Node := { nd with
        seen := if viewStampComp vs nd.seen > 0 then vs else nd.seen
        log := { nd.log with
          tailOff := nd.log.endOff
          endOff := nd.log.endOff + logEntryLen m entry
          entries := replyEntry m entry i hash }
        pc := .ack entry
        accepted := nd.accepted ++ [(vs, Record.decode (recordAt m entry))] }
      if stored then some ((w.storeRecord i (vstol vs) (recordAt m entry)).setNode i nd')
      else some (w.setNode i nd')
  | .ack entry =>
      let leader := readLE m (entry + offNodeId) 4
      if leader < maxServerCount then
        let w' := w.setNode i { nd with pc := .commit entry }
        match nd.conn leader with
        | none => some w'
        | some region =>
            let ack : AckWrite :=
              { src := i, dst := leader, region := region
                off := ackOffset nd.log.tailOff i - offsetofEntries
                byte := fun j => m (entry + acceptAckSize * i + j), visible := 0 }
            some { w' with ackWrites := w.ackWrites ++ [ack] }
      else none
  | .commit entry =>
      let canbe := readVs m (entry + offCanbeExed)
      some (w.setNode i { nd with
        pc := if viewStampComp canbe nd.committed > 0 then
            .apply entry (vstol nd.committed + 1) (vstol canbe)
          else .poll })
  | .apply entry index last =>
      if index ≤ last then
        some (w.setNode i { nd with
          applied := nd.applied ++ [(index, w.db i index)]
          pc := .apply entry (index + 1) last })
      else
        some (w.setNode i { nd with
          committed := readVs m (entry + offCanbeExed)
          pc := .poll })

/-! ## §6. Bytes of RDMA writes becoming visible. -/

/-- The next `k` bytes of call `id`'s entry write reach server `i`, which still
has the region it was addressed to. -/
def World.deliverEntry (w : World) (id i k : Nat) : Option World :=
  match w.entryWrites id i with
  | none => none
  | some e =>
      let nd := w.nodes i
      if nd.up = true ∧ nd.region = e.region ∧ e.visible + k ≤ e.len then
        let m := write nd.log.entries (e.off + e.visible) k fun j => e.byte (e.visible + j)
        some ((w.setEntryWrite id i { e with visible := e.visible + k }).setNode i
          (nd.setEntries m))
      else none

/-- The next `k` bytes of ack write `a` reach its target. -/
def World.deliverAck (w : World) (a k : Nat) : Option World :=
  match w.ackWrites[a]? with
  | none => none
  | some e =>
      let nd := w.nodes e.dst
      if nd.up = true ∧ nd.region = e.region ∧ e.visible + k ≤ acceptAckSize then
        let m := write nd.log.entries (e.off + e.visible) k fun j => e.byte (e.visible + j)
        some ((w.setAckWrite a { e with visible := e.visible + k }).setNode e.dst
          (nd.setEntries m))
      else none

/-! ## §7. Actions and runs. -/

/-- The steps of the group. -/
inductive Action where
  /-- node `i` is started, in mode `'s'` or as a joining node -/
  | start (i : Nat) (modeS : Bool)
  | crash (i : Nat)
  /-- node `i` handles a join reply naming `leader` -/
  | joinReply (i leader : Nat)
  /-- node `i` handles an `RC_SYN` or `RC_SYNACK` that node `j` sent with the
  address of its log `region` -/
  | connect (i j region : Nat)
  /-- node `i` handles a `DESTROY` of node `j` -/
  | destroy (i j : Nat)
  /-- the replica thread of node `i` runs `reconnect_inner` -/
  | relaunch (i : Nat)
  | submit (i : Nat) (q : Request)
  | call (id : Nat) (stored : Bool)
  | replica (i : Nat) (stored : Bool) (hash : Nat)
  | deliverEntry (id i k : Nat)
  | deliverAck (a k : Nat)

/-- One step, or none where the code takes none or leaves what is defined. -/
def step (w : World) : Action → Option World
  | .start i modeS =>
      if i < w.size ∧ (w.nodes i).up = false then some (w.setNode i ((w.nodes i).boot i modeS)) else none
  | .crash i =>
      if (w.nodes i).up = true then some (w.setNode i { w.nodes i with up := false }) else none
  | .joinReply i leader =>
      if (w.nodes i).up = true ∧ leader ≠ i then
        some (w.setNode i { w.nodes i with leaderId := leader })
      else none
  | .connect i j region =>
      if (w.nodes i).up = true ∧ region ≤ (w.nodes j).region ∧ (w.nodes i).conn j = none then
        some (w.setNode i { w.nodes i with
          conn := Function.update (w.nodes i).conn j (some region) })
      else none
  | .destroy i j =>
      if (w.nodes i).up = true then
        some (w.setNode i { w.nodes i with conn := Function.update (w.nodes i).conn j none })
      else none
  | .relaunch i =>
      if (w.nodes i).up = true ∧ (w.nodes i).leaderId ≠ i ∧ (w.nodes i).pc = .poll then
        some (w.setNode i (w.nodes i).relaunch)
      else none
  | .submit i q => w.submit i q
  | .call id stored =>
      match w.calls[id]? with
      | none => none
      | some c =>
          if (w.nodes c.owner).up = true ∧ (w.nodes c.owner).region = c.region then
            w.callStep id c stored
          else none
  | .replica i stored hash =>
      if (w.nodes i).up = true then w.replicaStep i stored hash else none
  | .deliverEntry id i k => w.deliverEntry id i k
  | .deliverAck a k => w.deliverAck a k

/-- A group of `n` nodes, none of them started. -/
def World.initial (n : Nat) : World where
  size := n
  nodes := fun _ => .down
  db := fun _ _ => none
  calls := []
  entryWrites := fun _ _ => none
  ackWrites := []

/-- A group of `n` nodes with leader `l`, all started and connected. -/
def World.booted (n l : Nat) : World :=
  { World.initial n with
    nodes := fun i =>
      if i < n then
        { Node.boot .down i (decide (i = l)) with
          leaderId := l
          conn := fun j => if j < n ∧ j ≠ i then some 1 else none }
      else .down }

end RdmaPaxos
