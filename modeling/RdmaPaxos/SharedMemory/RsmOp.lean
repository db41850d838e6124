/-
  RdmaPaxos.SharedMemory.RsmOp
  ────────────────────────────
  **`rsm_op` OF THE SHARED-MEMORY IMPLEMENTATION** (`shared_memory/src/consensus/consensus.c`).

  Any number of threads of the leader are inside `rsm_op`, each at a place of its own:

      lock ─▶ store ──────▶ sample ─▶ fill ─▶ copy ─▶ recheck ⇄ ackId
                │ fails                                  │ quorum
                ▼                                        ▼
              spin ◀──────────────────────────────────  spin ─▶ incRead ─▶ incWrite ─▶ returned

  The error exit jumps over `pthread_mutex_unlock` and over the assignment of
  `new_entry`, into the tail of the function: the mutex stays locked, and the spin-wait
  reads through a pointer that was never set.  What such a read gives is an input of
  the step.

  The other servers enter by what they write: the two fields of an `accept_ack`, one
  after the other, in a slot of an entry they have got a copy of.  Segments are new,
  and an entry that would reach past the end of its segment is not placed.

  §1  memory;
  §2  a call and the state;
  §3  the steps;
  §4  what a step can do.
-/
import RdmaPaxos.Consensus.QuorumCount

namespace RdmaPaxos.SharedMemory

open RdmaPaxos.BitSet

/-! ## §1. Memory. -/

/-- `MAX_SERVER_COUNT`. -/
def maxServerCount : Nat := 10

/-- `LOG_SIZE`. -/
def logSize : Nat := 16384 * 1024 * 4

/-- `sizeof(log_entry)`. -/
def sizeofLogEntry : Nat := 192

/-- `accept_ack`. -/
structure AcceptAck where
  msgVs : ViewStamp
  nodeId : Nat
  deriving DecidableEq

/-- `log_entry`. -/
structure LogEntry where
  ack : Nat → AcceptAck
  msgVs : ViewStamp
  reqCanbeExed : ViewStamp
  nodeId : Nat
  dataSize : Nat
  data : List UInt8

/-- An entry of a new segment. -/
def LogEntry.zero : LogEntry := ⟨fun _ => ⟨⟨0, 0⟩, 0⟩, ⟨0, 0⟩, ⟨0, 0⟩, 0, 0, []⟩

/-- `log_entry_len`, a `uint32_t`. -/
def logEntryLen (entry : LogEntry) : Nat := (sizeofLogEntry + entry.dataSize) % 2 ^ 32

/-- `request_record`, without the time it was created. -/
structure RequestRecord where
  bitMap : UInt64
  data : List UInt8
  deriving DecidableEq

/-- `update_record`. -/
def updateRecord (record : RequestRecord) (nodeId : UInt32) : RequestRecord :=
  { record with bitMap := record.bitMap ||| bit nodeId }

/-- `reached_quorum`, which has the body it has in `RDMA/`. -/
def reachedQuorum (record : RequestRecord) (groupSize : Nat) : Bool :=
  RdmaPaxos.reachedQuorum record.bitMap.toNat groupSize

/-! ## §2. Calls. -/

/-- Program counter of a thread inside `rsm_op`. -/
inductive RsmPc where
  /-- at `pthread_mutex_lock` (line 92) -/
  | lock
  /-- holds the mutex, about to call `store_record` (line 102) -/
  | store
  /-- has released the mutex, about to read `committed` (line 114) -/
  | sample
  /-- about to write `msg_vs` and the data (line 117) -/
  | fill
  /-- in the copy loop (line 121), at server `i` -/
  | copy (i : Nat)
  /-- in the recheck loop (line 130), about to compare the stamp in slot `i` -/
  | recheck (i : Nat)
  /-- the stamp matched, about to read the node id of slot `i` (line 136) -/
  | ackId (i : Nat)
  /-- about to test `reached_quorum` (line 140) -/
  | quorum
  /-- at the spin-wait (line 154) -/
  | spin
  /-- past the spin-wait, about to read `committed` (line 155) -/
  | incRead
  /-- about to write `v + 1` back -/
  | incWrite (v : UInt32)
  | returned (ret : Int)
  deriving DecidableEq

/-- Past the label `handle_submit_req_exit`. -/
def RsmPc.atExit : RsmPc → Bool
  | .spin | .incRead | .incWrite _ | .returned _ => true
  | _ => false

/-- The variables that calls share. -/
inductive Shared where
  | highestSeen
  | tail
  | committed
  deriving DecidableEq

/-- One invocation of `rsm_op`. -/
structure Call where
  data : List UInt8
  /-- the locals `next`, `*record_data`, `new_entry` (as an offset, once it is set) and `ret` -/
  next : ViewStamp
  record : RequestRecord
  newEntry : Option Nat
  ret : Int
  /-- the shared variables it has written -/
  writes : List Shared
  pc : RsmPc

/-- A call that has not taken the lock yet. -/
def Call.begin (data : List UInt8) : Call := ⟨data, ⟨0, 0⟩, ⟨0, []⟩, none, 1, [], .lock⟩

/-- The call came to the exit from the `store_record` of the critical section. -/
def Call.failed (c : Call) : Bool := c.pc.atExit && c.newEntry.isNone

/-- The leader's process, its segment and those of the others. -/
structure State where
  groupSize : Nat
  nodeId : Nat
  /-- the call that holds `comp->mutex` -/
  mutex : Option Nat
  highestSeen : ViewStamp
  committed : ViewStamp
  /-- `shared_memory.tail` -/
  tail : Nat
  /-- the entries of `shm[node_id]`, by their offsets -/
  entries : Nat → LogEntry
  /-- the entries copied to other servers, by server and offset -/
  copies : Nat → Nat → Option LogEntry
  db : Nat → Option RequestRecord
  calls : List Call
  /-- the calls whose record was stored, in that order -/
  order : List Nat
  /-- the acks begun so far: server and stamp -/
  acks : List (Nat × ViewStamp)

/-- After `init_consensus_comp` and `init_shm`. -/
def State.initial (groupSize nodeId : Nat) : State where
  groupSize := groupSize
  nodeId := nodeId
  mutex := none
  highestSeen := ⟨1, 0⟩
  committed := ⟨1, 0⟩
  tail := 0
  entries := fun _ => .zero
  copies := fun _ _ => none
  db := fun _ => none
  calls := []
  order := []
  acks := []

/-! ## §3. Steps. -/

/-- Call `id` becomes `c`. -/
def State.setCall (s : State) (id : Nat) (c : Call) : State :=
  { s with calls := s.calls.set id c }

/-- The entry at `off` becomes `e`. -/
def State.setEntry (s : State) (off : Nat) (e : LogEntry) : State :=
  { s with entries := Function.update s.entries off e }

/-- The `memcpy` of the entry at `off` to the segment of server `i`. -/
def State.copyEntry (s : State) (i off : Nat) : State :=
  let copied := Function.update (s.copies i) off (some (s.entries off))
  { s with copies := Function.update s.copies i copied }

/-- `get_next_view_stamp`. -/
def getNextViewStamp (s : State) : ViewStamp := ⟨s.highestSeen.viewId, s.highestSeen.reqId + 1⟩

/-- `store_record` of the call's record under its number, if it succeeds. -/
def State.storeRecord (s : State) (c : Call) (record : RequestRecord) (stored : Bool) : State :=
  if stored then { s with db := Function.update s.db (vstol c.next) (some record) } else s

/-- Lines 106–113: the rest of the critical section, after the record was stored. -/
def State.place (s : State) (id : Nat) (c : Call) : State :=
  let entry := { s.entries s.tail with dataSize := c.data.length }
  { s.storeRecord c c.record true with
    highestSeen := ⟨s.highestSeen.viewId, s.highestSeen.reqId + 1⟩
    entries := Function.update s.entries s.tail entry
    tail := s.tail + logEntryLen entry
    mutex := none
    order := s.order ++ [id]
    calls := s.calls.set id { c with
      newEntry := some s.tail
      ret := 0
      writes := c.writes ++ [.highestSeen, .tail]
      pc := .sample } }

/-- The steps of a call that has an entry, at `off`, up to the exit. -/
def State.replicate (s : State) (id : Nat) (c : Call) (off : Nat) (stored : Bool) : Option State :=
  let e := s.entries off
  match c.pc with
  | .sample =>
      some ((s.setEntry off { e with nodeId := s.nodeId, reqCanbeExed := s.committed }).setCall id
        { c with pc := .fill })
  | .fill =>
      -- a group of one goes straight to the exit
      some ((s.setEntry off { e with msgVs := c.next, data := c.data }).setCall id
        { c with pc := if 1 < s.groupSize then .copy 0 else .spin })
  | .copy i =>
      if i < s.groupSize then
        if i = s.nodeId then some (s.setCall id { c with pc := .copy (i + 1) })
        else
          some ((s.copyEntry i off).setCall id { c with pc := .copy (i + 1) })
      else some (s.setCall id { c with pc := .recheck 0 })
  | .recheck i =>
      -- over all slots, not only those of the group
      if i < maxServerCount then
        if i ≠ s.nodeId ∧ (e.ack i).msgVs = c.next then
          some (s.setCall id { c with pc := .ackId i })
        else some (s.setCall id { c with pc := .recheck (i + 1) })
      else some (s.setCall id { c with pc := .quorum })
  | .ackId i =>
      -- what this `store_record` returns is not looked at
      let record := updateRecord c.record (UInt32.ofNat (e.ack i).nodeId)
      some ((s.storeRecord c record stored).setCall id
        { c with record := record, pc := .recheck (i + 1) })
  | .quorum =>
      if reachedQuorum c.record s.groupSize then some (s.setCall id { c with pc := .spin })
      else some (s.setCall id { c with pc := .recheck 0 })
  | _ => none

/-- The next step of call `id`; `stored` is the outcome of `store_record`, and `wild` what a
read through an unset `new_entry` gives, if the step has them. -/
def State.run (s : State) (id : Nat) (c : Call) (stored : Bool) (wild : UInt32) : Option State :=
  match c.pc with
  | .lock =>
      if s.mutex = none then
        some { s.setCall id { c with
          next := getNextViewStamp s
          record := ⟨bit (UInt32.ofNat s.nodeId), c.data⟩
          pc := .store } with mutex := some id }
      else none
  | .store =>
      if stored then
        if s.tail + sizeofLogEntry + c.data.length ≤ logSize then some (s.place id c) else none
      -- the jump to the exit: nothing is unlocked, and `new_entry` is not set
      else some (s.setCall id { c with pc := .spin })
  | .spin =>
      let reqId := c.newEntry.elim wild fun off => (s.entries off).msgVs.reqId
      if reqId > s.committed.reqId + 1 then some s
      else some (s.setCall id { c with pc := .incRead })
  | .incRead => some (s.setCall id { c with pc := .incWrite s.committed.reqId })
  | .incWrite v =>
      some { s.setCall id { c with writes := c.writes ++ [.committed], pc := .returned c.ret } with
        committed := ⟨s.committed.viewId, v + 1⟩ }
  | .returned _ => none
  | _ => c.newEntry.bind fun off => s.replicate id c off stored

/-- The steps of the threads and of the servers that answer them. -/
inductive Action where
  /-- a thread calls `rsm_op` -/
  | call (data : List UInt8)
  | run (id : Nat) (stored : Bool) (wild : UInt32)
  /-- server `j` writes the stamp of its ack for the entry at `off` -/
  | ackStamp (j off : Nat)
  /-- server `j` writes the node id of that ack -/
  | ackNode (j off : Nat)

/-- Slot `j` of the entry at `off` becomes `a`. -/
def State.setAck (s : State) (j off : Nat) (a : AcceptAck) : State :=
  s.setEntry off { s.entries off with ack := Function.update (s.entries off).ack j a }

/-- One step. -/
def State.step (s : State) : Action → Option State
  | .call data => some { s with calls := s.calls ++ [.begin data] }
  | .run id stored wild => (s.calls[id]?).bind fun c => s.run id c stored wild
  | .ackStamp j off =>
      (s.copies j off).map fun e =>
        { s.setAck j off { (s.entries off).ack j with msgVs := e.msgVs } with
          acks := s.acks ++ [(j, e.msgVs)] }
  | .ackNode j off =>
      (s.copies j off).map fun _ => s.setAck j off { (s.entries off).ack j with nodeId := j }

/-! ## §4. What a step can do. -/

/-- The steps of a call with an entry, up to the exit. -/
inductive Replicates (s : State) (id : Nat) (c : Call) (off : Nat) : Bool → State → Prop where
  | sample {stored : Bool} (hpc : c.pc = .sample) :
      Replicates s id c off stored ((s.setEntry off { s.entries off with
        nodeId := s.nodeId, reqCanbeExed := s.committed }).setCall id { c with pc := .fill })
  | fill {stored : Bool} {pc : RsmPc} (hpc : c.pc = .fill)
      (hnext : 1 < s.groupSize ∧ pc = .copy 0 ∨ s.groupSize ≤ 1 ∧ pc = .spin) :
      Replicates s id c off stored ((s.setEntry off { s.entries off with
        msgVs := c.next, data := c.data }).setCall id { c with pc := pc })
  | copy {stored : Bool} {i : Nat} (hpc : c.pc = .copy i) (hi : i < s.groupSize)
      (hne : i ≠ s.nodeId) :
      Replicates s id c off stored
        ((s.copyEntry i off).setCall id { c with pc := .copy (i + 1) })
  | skip {stored : Bool} {i : Nat} (hpc : c.pc = .copy i) :
      Replicates s id c off stored (s.setCall id { c with pc := .copy (i + 1) })
  | copied {stored : Bool} {i : Nat} (hpc : c.pc = .copy i) :
      Replicates s id c off stored (s.setCall id { c with pc := .recheck 0 })
  | hit {stored : Bool} {i : Nat} (hpc : c.pc = .recheck i) (hi : i < maxServerCount)
      (hvs : ((s.entries off).ack i).msgVs = c.next) :
      Replicates s id c off stored (s.setCall id { c with pc := .ackId i })
  | miss {stored : Bool} {i : Nat} (hpc : c.pc = .recheck i) :
      Replicates s id c off stored (s.setCall id { c with pc := .recheck (i + 1) })
  | scanned {stored : Bool} {i : Nat} (hpc : c.pc = .recheck i) :
      Replicates s id c off stored (s.setCall id { c with pc := .quorum })
  | ackId {stored : Bool} {i : Nat} (hpc : c.pc = .ackId i) :
      Replicates s id c off stored ((s.storeRecord c
        (updateRecord c.record (UInt32.ofNat ((s.entries off).ack i).nodeId)) stored).setCall id
          { c with
            record := updateRecord c.record (UInt32.ofNat ((s.entries off).ack i).nodeId)
            pc := .recheck (i + 1) })
  | quorum {stored : Bool} (hpc : c.pc = .quorum) (hq : reachedQuorum c.record s.groupSize = true) :
      Replicates s id c off stored (s.setCall id { c with pc := .spin })
  | again {stored : Bool} (hpc : c.pc = .quorum) :
      Replicates s id c off stored (s.setCall id { c with pc := .recheck 0 })

/-- Every step of the loops is one of these. -/
theorem replicate_cases {s s' : State} {id off : Nat} {c : Call} {stored : Bool}
    (h : s.replicate id c off stored = some s') : Replicates s id c off stored s' := by
  unfold State.replicate at h
  dsimp only at h
  split at h
  next hpc => cases h; exact .sample hpc
  next hpc =>
    cases h
    refine .fill hpc ?_
    by_cases hsize : 1 < s.groupSize
    · exact .inl ⟨hsize, if_pos hsize⟩
    · exact .inr ⟨Nat.le_of_not_lt hsize, if_neg hsize⟩
  next i hpc =>
    split at h
    next hi =>
      split at h
      next => cases h; exact .skip hpc
      next hne => cases h; exact .copy hpc hi hne
    next => cases h; exact .copied hpc
  next i hpc =>
    split at h
    next hi =>
      split at h
      next hvs => cases h; exact .hit hpc hi hvs.2
      next => cases h; exact .miss hpc
    next => cases h; exact .scanned hpc
  next i hpc => cases h; exact .ackId hpc
  next hpc =>
    split at h
    next hq => cases h; exact .quorum hpc hq
    next => cases h; exact .again hpc
  next => cases h

/-- The steps of call `id`, which is in state `c`. -/
inductive RunStep (s : State) (id : Nat) (c : Call) : Bool → UInt32 → State → Prop where
  | lock {stored : Bool} {wild : UInt32} (hpc : c.pc = .lock) (hfree : s.mutex = none) :
      RunStep s id c stored wild { s.setCall id { c with
        next := getNextViewStamp s
        record := ⟨bit (UInt32.ofNat s.nodeId), c.data⟩
        pc := .store } with mutex := some id }
  | place {wild : UInt32} (hpc : c.pc = .store)
      (hfit : s.tail + sizeofLogEntry + c.data.length ≤ logSize) :
      RunStep s id c true wild (s.place id c)
  | fail {wild : UInt32} (hpc : c.pc = .store) :
      RunStep s id c false wild (s.setCall id { c with pc := .spin })
  | replicate {stored : Bool} {wild : UInt32} {off : Nat} {s' : State} (hoff : c.newEntry = some off)
      (h : Replicates s id c off stored s') : RunStep s id c stored wild s'
  | spin {stored : Bool} {wild : UInt32} (hpc : c.pc = .spin) : RunStep s id c stored wild s
  | leaveSpin {stored : Bool} {wild : UInt32} (hpc : c.pc = .spin)
      (htest : ¬ (c.newEntry.elim wild fun off => (s.entries off).msgVs.reqId)
        > s.committed.reqId + 1) :
      RunStep s id c stored wild (s.setCall id { c with pc := .incRead })
  | incRead {stored : Bool} {wild : UInt32} (hpc : c.pc = .incRead) :
      RunStep s id c stored wild (s.setCall id { c with pc := .incWrite s.committed.reqId })
  | incWrite {stored : Bool} {wild v : UInt32} (hpc : c.pc = .incWrite v) :
      RunStep s id c stored wild { s.setCall id { c with
        writes := c.writes ++ [.committed], pc := .returned c.ret } with
          committed := ⟨s.committed.viewId, v + 1⟩ }

/-- Every step of a call is one of these. -/
theorem run_cases {s s' : State} {id : Nat} {c : Call} {stored : Bool} {wild : UInt32}
    (h : s.run id c stored wild = some s') : RunStep s id c stored wild s' := by
  unfold State.run at h
  split at h
  next hpc =>
    split at h
    next hfree => cases h; exact .lock hpc hfree
    next => cases h
  next hpc =>
    split at h
    next hstored =>
      subst hstored
      split at h
      next hfit => cases h; exact .place hpc hfit
      next => cases h
    next hstored =>
      cases h
      rw [(Bool.not_eq_true _).mp hstored]
      exact .fail hpc
  next hpc =>
    dsimp only at h
    split at h
    next => cases h; exact .spin hpc
    next htest => cases h; exact .leaveSpin hpc htest
  next hpc => cases h; exact .incRead hpc
  next v hpc => cases h; exact .incWrite hpc
  next => cases h
  next =>
    obtain ⟨off, hoff, hrest⟩ := Option.bind_eq_some_iff.mp h
    exact .replicate hoff (replicate_cases hrest)

/-- All steps. -/
inductive Step (s : State) : Action → State → Prop where
  | call (data : List UInt8) : Step s (.call data) { s with calls := s.calls ++ [.begin data] }
  | run {id : Nat} {c : Call} {stored : Bool} {wild : UInt32} {s' : State}
      (hc : s.calls[id]? = some c) (h : RunStep s id c stored wild s') :
      Step s (.run id stored wild) s'
  | ackStamp {j off : Nat} {e : LogEntry} (he : s.copies j off = some e) :
      Step s (.ackStamp j off) { s.setAck j off { (s.entries off).ack j with msgVs := e.msgVs } with
        acks := s.acks ++ [(j, e.msgVs)] }
  | ackNode {j off : Nat} {e : LogEntry} (he : s.copies j off = some e) :
      Step s (.ackNode j off) (s.setAck j off { (s.entries off).ack j with nodeId := j })

/-- **Every step is one of these.** -/
theorem step_cases {s s' : State} {a : Action} (h : s.step a = some s') : Step s a s' := by
  cases a with
  | call data => cases h; exact .call data
  | run id stored wild =>
      obtain ⟨c, hc, hrun⟩ := Option.bind_eq_some_iff.mp h
      exact .run hc (run_cases hrun)
  | ackStamp j off =>
      obtain ⟨e, he, rfl⟩ := Option.map_eq_some_iff.mp h
      exact .ackStamp he
  | ackNode j off =>
      obtain ⟨e, he, rfl⟩ := Option.map_eq_some_iff.mp h
      exact .ackNode he

end RdmaPaxos.SharedMemory
