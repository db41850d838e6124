/-
  RdmaPaxos.Consensus.Steps
  ─────────────────────────
  **WHAT A STEP CAN DO.**

  The step functions once more, as relations with one named case per branch:
  `CallStep` for `leader_handle_submit_req`, `ReplicaStep` for
  `handle_accept_req`, `Step` for all actions.  `step_cases` turns an equation
  about `step` into such a case; every invariant proof starts from it.
-/
import RdmaPaxos.Consensus.World

namespace RdmaPaxos

open RdmaPaxos.ByteMemory

/-! ## §1. Calls. -/

/-- The steps of call `id`, which is in state `c`. -/
inductive CallStep (w : World) (id : Nat) (c : Call) : Bool → World → Prop where
  | sample {stored : Bool} (hpc : c.pc = .sample) :
      CallStep w id c stored ((w.setNode c.owner ((w.nodes c.owner).setEntries
        (writeVs (w.nodes c.owner).log.entries (c.entry + offCanbeExed)
          (w.nodes c.owner).committed))).setCall id { c with pc := .fill })
  | fill {stored : Bool} (hpc : c.pc = .fill) :
      CallStep w id c stored ((w.setNode c.owner ((w.nodes c.owner).setEntries
        (fillEntry (w.nodes c.owner).log.entries c.entry c.req c.next c.owner))).setCall id
          { c with pc := .store })
  | store (hpc : c.pc = .store) :
      CallStep w id c true ((w.storeRecord c.owner (vstol c.next)
        (recordAt (w.nodes c.owner).log.entries c.entry)).setCall id { c with pc := .mark })
  | fail (hpc : c.pc = .store) : CallStep w id c false (w.setCall id { c with pc := .failed })
  | mark {stored : Bool} (hpc : c.pc = .mark) :
      CallStep w id c stored ((w.setNode c.owner ((w.nodes c.owner).setEntries
        (markEntry (w.nodes c.owner).log.entries c.entry))).setCall id
          { c with bitMap := 1 <<< c.owner, pc := .post 0 })
  | skip {stored : Bool} {i : Nat} (hpc : c.pc = .post i) (hi : i < w.size)
      (hno : i = c.owner ∨ (w.nodes c.owner).conn i = none) :
      CallStep w id c stored (w.setCall id { c with pc := .post (i + 1) })
  | post {stored : Bool} {i region : Nat} (hpc : c.pc = .post i) (hi : i < w.size)
      (hne : i ≠ c.owner) (hconn : (w.nodes c.owner).conn i = some region) :
      CallStep w id c stored ((w.setEntryWrite id i
        (postEntry (w.nodes c.owner).log.entries c region)).setCall id
          { c with pc := .post (i + 1) })
  | posted {stored : Bool} {i : Nat} (hpc : c.pc = .post i) (hi : ¬ i < w.size) :
      CallStep w id c stored (w.setCall id { c with pc := .recheck 0 })
  | hit {stored : Bool} {i : Nat} (hpc : c.pc = .recheck i) (hi : i < maxServerCount)
      (hvs : readVs (w.nodes c.owner).log.entries (c.entry + acceptAckSize * i) = c.next) :
      CallStep w id c stored (w.setCall id { c with pc := .ackId i })
  | miss {stored : Bool} {i : Nat} (hpc : c.pc = .recheck i) (hi : i < maxServerCount)
      (hvs : readVs (w.nodes c.owner).log.entries (c.entry + acceptAckSize * i) ≠ c.next) :
      CallStep w id c stored (w.setCall id { c with pc := .recheck (i + 1) })
  | scanned {stored : Bool} {i : Nat} (hpc : c.pc = .recheck i) (hi : ¬ i < maxServerCount) :
      CallStep w id c stored (w.setCall id { c with pc := .quorum })
  | ackId {stored : Bool} {i nodeId : Nat} (hpc : c.pc = .ackId i) (hlt : nodeId < 31)
      (hid : readLE (w.nodes c.owner).log.entries (c.entry + acceptAckSize * i + 8) 4 = nodeId) :
      CallStep w id c stored (w.setCall id
        { c with bitMap := c.bitMap ||| 1 <<< nodeId, pc := .recheck (i + 1) })
  | quorum {stored : Bool} (hpc : c.pc = .quorum) (hq : reachedQuorum c.bitMap w.size = true) :
      CallStep w id c stored (w.setCall id { c with pc := .spin })
  | again {stored : Bool} (hpc : c.pc = .quorum) (hq : reachedQuorum c.bitMap w.size = false) :
      CallStep w id c stored (w.setCall id { c with pc := .recheck 0 })
  | spin {stored : Bool} (hpc : c.pc = .spin)
      (htest : (readVs (w.nodes c.owner).log.entries (c.entry + offMsgVs)).reqId
        > (w.nodes c.owner).committed.reqId + 1) : CallStep w id c stored w
  | leaveSpin {stored : Bool} (hpc : c.pc = .spin)
      (htest : ¬ (readVs (w.nodes c.owner).log.entries (c.entry + offMsgVs)).reqId
        > (w.nodes c.owner).committed.reqId + 1) :
      CallStep w id c stored (w.setCall id { c with pc := .incRead })
  | incRead {stored : Bool} (hpc : c.pc = .incRead) :
      CallStep w id c stored
        (w.setCall id { c with pc := .incWrite (w.nodes c.owner).committed.reqId })
  | incWrite {stored : Bool} {v : UInt32} (hpc : c.pc = .incWrite v) :
      CallStep w id c stored ((w.setNode c.owner { w.nodes c.owner with
        committed := ⟨(w.nodes c.owner).committed.viewId, v + 1⟩ }).setCall id
          { c with pc := .done })

/-- Every step of a call is one of these. -/
theorem callStep_cases {w w' : World} {id : Nat} {c : Call} {stored : Bool}
    (h : w.callStep id c stored = some w') : CallStep w id c stored w' := by
  unfold World.callStep at h
  dsimp only at h
  split at h
  next hpc => cases h; exact .sample hpc
  next hpc => cases h; exact .fill hpc
  next hpc =>
    cases stored
    · cases h; exact .fail hpc
    · cases h; exact .store hpc
  next hpc => cases h; exact .mark hpc
  next i hpc =>
    split at h
    next hi =>
      split at h
      next hmatch =>
        cases h
        refine .skip hpc hi ?_
        by_cases hio : i = c.owner
        · exact .inl hio
        · rw [if_neg hio] at hmatch
          exact .inr hmatch
      next region hmatch =>
        cases h
        by_cases hio : i = c.owner
        · rw [if_pos hio] at hmatch
          cases hmatch
        · rw [if_neg hio] at hmatch
          exact .post hpc hi hio hmatch
    next hi => cases h; exact .posted hpc hi
  next i hpc =>
    split at h
    next hi =>
      split at h
      next hvs => cases h; exact .hit hpc hi hvs
      next hvs => cases h; exact .miss hpc hi hvs
    next hi => cases h; exact .scanned hpc hi
  next i hpc =>
    split at h
    next hlt => cases h; exact .ackId hpc hlt rfl
    next => cases h
  next hpc =>
    split at h
    next hq => cases h; exact .quorum hpc hq
    next hq => cases h; exact .again hpc (Bool.eq_false_of_not_eq_true hq)
  next hpc =>
    split at h
    next htest => cases h; exact .spin hpc htest
    next htest => cases h; exact .leaveSpin hpc htest
  next hpc => cases h; exact .incRead hpc
  next v hpc => cases h; exact .incWrite hpc
  next => cases h
  next => cases h

/-- The relation has no steps the function does not take. -/
theorem CallStep.exec {w w' : World} {id : Nat} {c : Call} {stored : Bool}
    (h : CallStep w id c stored w') : w.callStep id c stored = some w' := by
  unfold World.callStep
  cases h with
  | store hpc | fail hpc => simp only [hpc]; rfl
  | @skip _ i hpc hi hno =>
      have hnone : (if i = c.owner then none else (w.nodes c.owner).conn i) = none := by
        split
        · rfl
        next hne => exact hno.resolve_left hne
      simp only [hpc, hi, hnone, if_true]
  | post hpc hi hne hconn => simp only [hpc, hi, if_true, if_neg hne, hconn]
  | posted hpc hi | scanned hpc hi => simp only [hpc, hi, if_false]
  | hit hpc hi hvs => simp only [hpc, hi, hvs, if_true]
  | miss hpc hi hvs => simp only [hpc, hi, hvs, if_true, if_false]
  | ackId hpc hlt hid =>
      subst hid
      simp only [hpc, hlt, if_true]
  | quorum hpc hq => simp only [hpc, hq, if_true]
  | again hpc hq => simp only [hpc, hq, Bool.false_eq_true, if_false]
  | spin hpc htest | leaveSpin hpc htest => simp only [hpc, htest, if_true, if_false]
  | sample hpc | fill hpc | mark hpc | incRead hpc | incWrite hpc => simp only [hpc]

/-! ## §2. Replica threads. -/

/-- Node `nd` after it has accepted the entry at `entry`. -/
def Node.accept (nd : Node) (i entry hash : Nat) : Node :=
  { nd with
    seen := if viewStampComp (readVs nd.log.entries (entry + offMsgVs)) nd.seen > 0
      then readVs nd.log.entries (entry + offMsgVs) else nd.seen
    log := { nd.log with
      tailOff := nd.log.endOff
      endOff := nd.log.endOff + logEntryLen nd.log.entries entry
      entries := replyEntry nd.log.entries entry i hash }
    pc := .ack entry
    accepted := nd.accepted ++
      [(readVs nd.log.entries (entry + offMsgVs), Record.decode (recordAt nd.log.entries entry))] }

/-- What accepting an entry does to the log. -/
theorem accept_log (nd : Node) (i entry hash : Nat) : (nd.accept i entry hash).log
    = ⟨nd.log.endOff + logEntryLen nd.log.entries entry, nd.log.endOff, nd.log.len,
        replyEntry nd.log.entries entry i hash⟩ := rfl

/-- The ack node `i` posts for the entry at `entry`. -/
def Node.ackWrite (nd : Node) (i entry leader region : Nat) : AckWrite where
  src := i
  dst := leader
  region := region
  off := ackOffset nd.log.tailOff i - offsetofEntries
  byte := fun j => nd.log.entries (entry + acceptAckSize * i + j)
  visible := 0

/-- The steps of the replica thread of node `i`. -/
inductive ReplicaStep (w : World) (i : Nat) : Bool → Nat → World → Prop where
  | leader {stored : Bool} {hash : Nat} (hpc : (w.nodes i).pc = .poll)
      (hlead : (w.nodes i).leaderId = i) : ReplicaStep w i stored hash w
  | poll {stored : Bool} {hash off : Nat} (hpc : (w.nodes i).pc = .poll)
      (hlead : (w.nodes i).leaderId ≠ i)
      (hoff : logGetEntry (w.nodes i).log (w.nodes i).log.endOff = off)
      (hin : off + sizeofEntry ≤ (w.nodes i).log.len) :
      ReplicaStep w i stored hash (w.setNode i { w.nodes i with
        log := { (w.nodes i).log with endOff := off }
        pc := if readLE (w.nodes i).log.entries (off + offDataSize) 8 ≠ 0 then .measure off
          else .poll })
  | measure {stored : Bool} {hash entry : Nat} (hpc : (w.nodes i).pc = .measure entry) :
      ReplicaStep w i stored hash (w.setNode i { w.nodes i with
        pc := .marker entry (logEntryLen (w.nodes i).log.entries entry) })
  | marker {stored : Bool} {hash entry len : Nat} (hpc : (w.nodes i).pc = .marker entry len)
      (hin : entry + len ≤ (w.nodes i).log.len) (hpos : 0 < len) :
      ReplicaStep w i stored hash (w.setNode i { w.nodes i with
        pc := if (w.nodes i).log.entries (entry + len - 1) = dummyEnd then .accept entry else .poll })
  | accept {hash entry : Nat} (hpc : (w.nodes i).pc = .accept entry) :
      ReplicaStep w i true hash ((w.storeRecord i
        (vstol (readVs (w.nodes i).log.entries (entry + offMsgVs)))
        (recordAt (w.nodes i).log.entries entry)).setNode i ((w.nodes i).accept i entry hash))
  | acceptUnstored {hash entry : Nat} (hpc : (w.nodes i).pc = .accept entry) :
      ReplicaStep w i false hash (w.setNode i ((w.nodes i).accept i entry hash))
  | unconnected {stored : Bool} {hash entry : Nat} (hpc : (w.nodes i).pc = .ack entry)
      (hconn : (w.nodes i).conn (readLE (w.nodes i).log.entries (entry + offNodeId) 4) = none)
      (hlt : readLE (w.nodes i).log.entries (entry + offNodeId) 4 < maxServerCount) :
      ReplicaStep w i stored hash (w.setNode i { w.nodes i with pc := .commit entry })
  | ack {stored : Bool} {hash entry leader region : Nat} (hpc : (w.nodes i).pc = .ack entry)
      (hleader : readLE (w.nodes i).log.entries (entry + offNodeId) 4 = leader)
      (hlt : leader < maxServerCount) (hconn : (w.nodes i).conn leader = some region) :
      ReplicaStep w i stored hash { w.setNode i { w.nodes i with pc := .commit entry } with
        ackWrites := w.ackWrites ++ [(w.nodes i).ackWrite i entry leader region] }
  | commit {stored : Bool} {hash entry : Nat} (hpc : (w.nodes i).pc = .commit entry) :
      ReplicaStep w i stored hash (w.setNode i { w.nodes i with
        pc := if viewStampComp (readVs (w.nodes i).log.entries (entry + offCanbeExed))
            (w.nodes i).committed > 0
          then .apply entry (vstol (w.nodes i).committed + 1)
            (vstol (readVs (w.nodes i).log.entries (entry + offCanbeExed)))
          else .poll })
  | apply {stored : Bool} {hash entry index last : Nat}
      (hpc : (w.nodes i).pc = .apply entry index last) (hle : index ≤ last) :
      ReplicaStep w i stored hash (w.setNode i { w.nodes i with
        applied := (w.nodes i).applied ++ [(index, w.db i index)]
        pc := .apply entry (index + 1) last })
  | applied {stored : Bool} {hash entry index last : Nat}
      (hpc : (w.nodes i).pc = .apply entry index last) (hle : ¬ index ≤ last) :
      ReplicaStep w i stored hash (w.setNode i { w.nodes i with
        committed := readVs (w.nodes i).log.entries (entry + offCanbeExed)
        pc := .poll })

/-- Every step of the loop is one of these. -/
theorem replicaStep_cases {w w' : World} {i hash : Nat} {stored : Bool}
    (h : w.replicaStep i stored hash = some w') : ReplicaStep w i stored hash w' := by
  unfold World.replicaStep at h
  dsimp only at h
  split at h
  next hpc =>
    split at h
    next hlead =>
      split at h
      next hin => cases h; exact .poll hpc hlead rfl hin
      next => cases h
    next hlead => cases h; exact .leader hpc (not_not.mp hlead)
  next entry hpc => cases h; exact .measure hpc
  next entry len hpc =>
    split at h
    next hin => cases h; exact .marker hpc hin.2 hin.1
    next => cases h
  next entry hpc =>
    cases stored
    · cases h; exact .acceptUnstored hpc
    · cases h; exact .accept hpc
  next entry hpc =>
    split at h
    next hlt =>
      split at h
      next hconn => cases h; exact .unconnected hpc hconn hlt
      next region hconn => cases h; exact .ack hpc rfl hlt hconn
    next => cases h
  next entry hpc => cases h; exact .commit hpc
  next entry index last hpc =>
    split at h
    next hle => cases h; exact .apply hpc hle
    next hle => cases h; exact .applied hpc hle

/-- And each of these is a step of the loop. -/
theorem ReplicaStep.exec {w w' : World} {i hash : Nat} {stored : Bool}
    (h : ReplicaStep w i stored hash w') : w.replicaStep i stored hash = some w' := by
  unfold World.replicaStep
  cases h with
  | leader hpc hlead => simp only [hpc, hlead, ne_eq, not_true, if_false]
  | poll hpc hlead hoff hin =>
      subst hoff
      simp only [hpc, ne_eq, hlead, not_false_iff, if_true, hin]
  | measure hpc => simp only [hpc]
  | marker hpc hin hpos => simp only [hpc, hin, hpos, and_self, if_true]
  | accept hpc => simp only [hpc, if_true]; rfl
  | acceptUnstored hpc => simp only [hpc]; rfl
  | unconnected hpc hconn hlt => simp only [hpc, hconn, hlt, if_true]
  | ack hpc hleader hlt hconn =>
      subst hleader
      simp only [hpc, hconn, hlt, if_true]
      rfl
  | commit hpc => simp only [hpc]
  | apply hpc hle => simp only [hpc, hle, if_true]
  | applied hpc hle => simp only [hpc, hle, if_false]

/-! ## §3. All actions. -/

/-- The leader's process after the critical section. -/
def Node.alloc (nd : Node) (q : Request) : Node :=
  { nd with
    seen := ⟨nd.seen.viewId, (getNextViewStamp nd).reqId⟩
    log := (allocEntry nd.log q.data.size).2 }

/-- What a submission does to the log. -/
theorem alloc_log (nd : Node) (q : Request) :
    (nd.alloc q).log = (allocEntry nd.log q.data.size).2 := rfl

/-- The call that leaves the critical section. -/
def Node.newCall (nd : Node) (i : Nat) (q : Request) : Call where
  owner := i
  region := nd.region
  req := q
  next := getNextViewStamp nd
  entry := (allocEntry nd.log q.data.size).1
  offset := publishOffset (allocEntry nd.log q.data.size).2.tailOff
  bitMap := 0
  pc := .sample

/-- The steps of the group as a relation, with what each of them needs. -/
inductive Step (w : World) : Action → World → Prop where
  | start {i : Nat} {modeS : Bool} (hi : i < w.size) (hup : (w.nodes i).up = false) :
      Step w (.start i modeS) (w.setNode i ((w.nodes i).boot i modeS))
  | crash {i : Nat} (hup : (w.nodes i).up = true) :
      Step w (.crash i) (w.setNode i { w.nodes i with up := false })
  | joinReply {i leader : Nat} (hup : (w.nodes i).up = true) (hne : leader ≠ i) :
      Step w (.joinReply i leader) (w.setNode i { w.nodes i with leaderId := leader })
  | connect {i j region : Nat} (hup : (w.nodes i).up = true) (hle : region ≤ (w.nodes j).region)
      (hnone : (w.nodes i).conn j = none) :
      Step w (.connect i j region) (w.setNode i { w.nodes i with
        conn := Function.update (w.nodes i).conn j (some region) })
  | destroy {i j : Nat} (hup : (w.nodes i).up = true) :
      Step w (.destroy i j) (w.setNode i { w.nodes i with
        conn := Function.update (w.nodes i).conn j none })
  | relaunch {i : Nat} (hup : (w.nodes i).up = true) (hlead : (w.nodes i).leaderId ≠ i)
      (hpc : (w.nodes i).pc = .poll) : Step w (.relaunch i) (w.setNode i (w.nodes i).relaunch)
  | submit {i : Nat} {q : Request} (hup : (w.nodes i).up = true)
      (hlead : (w.nodes i).leaderId = i) (hsize : w.size ≤ maxServerCount)
      (hfit : (allocEntry (w.nodes i).log q.data.size).1 + sizeofEntry + (q.data.size + 1)
        ≤ (w.nodes i).log.len) :
      Step w (.submit i q) { w.setNode i ((w.nodes i).alloc q) with
        calls := w.calls ++ [(w.nodes i).newCall i q] }
  | call {id : Nat} {c : Call} {stored : Bool} {w' : World} (hc : w.calls[id]? = some c)
      (hup : (w.nodes c.owner).up = true) (hregion : (w.nodes c.owner).region = c.region)
      (hstep : CallStep w id c stored w') : Step w (.call id stored) w'
  | replica {i hash : Nat} {stored : Bool} {w' : World} (hup : (w.nodes i).up = true)
      (hstep : ReplicaStep w i stored hash w') : Step w (.replica i stored hash) w'
  | deliverEntry {id i k : Nat} {e : EntryWrite} (he : w.entryWrites id i = some e)
      (hup : (w.nodes i).up = true) (hregion : (w.nodes i).region = e.region)
      (hk : e.visible + k ≤ e.len) :
      Step w (.deliverEntry id i k) ((w.setEntryWrite id i
        { e with visible := e.visible + k }).setNode i ((w.nodes i).setEntries
          (write (w.nodes i).log.entries (e.off + e.visible) k fun j => e.byte (e.visible + j))))
  | deliverAck {a k : Nat} {e : AckWrite} (he : w.ackWrites[a]? = some e)
      (hup : (w.nodes e.dst).up = true) (hregion : (w.nodes e.dst).region = e.region)
      (hk : e.visible + k ≤ acceptAckSize) :
      Step w (.deliverAck a k) ((w.setAckWrite a
        { e with visible := e.visible + k }).setNode e.dst ((w.nodes e.dst).setEntries
          (write (w.nodes e.dst).log.entries (e.off + e.visible) k
            fun j => e.byte (e.visible + j))))

/-- **Every step of the group is one of these.** -/
theorem step_cases {w w' : World} {a : Action} (h : step w a = some w') : Step w a w' := by
  cases a with
  | start i modeS =>
      simp only [step] at h
      split at h
      next hg => cases h; exact .start hg.1 hg.2
      next => cases h
  | crash i =>
      simp only [step] at h
      split at h
      next hg => cases h; exact .crash hg
      next => cases h
  | joinReply i leader =>
      simp only [step] at h
      split at h
      next hg => cases h; exact .joinReply hg.1 hg.2
      next => cases h
  | connect i j region =>
      simp only [step] at h
      split at h
      next hg => cases h; exact .connect hg.1 hg.2.1 hg.2.2
      next => cases h
  | destroy i j =>
      simp only [step] at h
      split at h
      next hg => cases h; exact .destroy hg
      next => cases h
  | relaunch i =>
      simp only [step] at h
      split at h
      next hg => cases h; exact .relaunch hg.1 hg.2.1 hg.2.2
      next => cases h
  | submit i q =>
      simp only [step, World.submit] at h
      split at h
      next hg => cases h; exact .submit hg.1 hg.2.1 hg.2.2.1 hg.2.2.2
      next => cases h
  | call id stored =>
      simp only [step] at h
      split at h
      next => cases h
      next c hc =>
        split at h
        next hg => exact .call hc hg.1 hg.2 (callStep_cases h)
        next => cases h
  | replica i stored hash =>
      simp only [step] at h
      split at h
      next hup => exact .replica hup (replicaStep_cases h)
      next => cases h
  | deliverEntry id i k =>
      simp only [step, World.deliverEntry] at h
      split at h
      next => cases h
      next e he =>
        split at h
        next hg => cases h; exact .deliverEntry he hg.1 hg.2.1 hg.2.2
        next => cases h
  | deliverAck a k =>
      simp only [step, World.deliverAck] at h
      split at h
      next => cases h
      next e he =>
        split at h
        next hg => cases h; exact .deliverAck he hg.1 hg.2.1 hg.2.2
        next => cases h

/-- And each of these is a step. -/
theorem Step.exec {w w' : World} {a : Action} (h : Step w a w') : step w a = some w' := by
  cases h with
  | start hi hup => simp only [step, hi, hup, and_self, if_true]
  | crash hup => simp only [step, hup, if_true]
  | joinReply hup hne => simp only [step, hup, ne_eq, hne, not_false_iff, and_self, if_true]
  | connect hup hle hnone => simp only [step, hup, hle, hnone, and_self, if_true]
  | destroy hup => simp only [step, hup, if_true]
  | relaunch hup hlead hpc =>
      simp only [step, hup, ne_eq, hlead, not_false_iff, hpc, and_self, if_true]
  | submit hup hlead hsize hfit =>
      simp only [step, World.submit]
      rw [if_pos ⟨hup, hlead, hsize, hfit⟩]
      rfl
  | call hc hup hregion hcall =>
      simp only [step, hc, hup, hregion, and_self, if_true]
      exact hcall.exec
  | replica hup hrep =>
      simp only [step, hup, if_true]
      exact hrep.exec
  | deliverEntry he hup hregion hk =>
      simp only [step, World.deliverEntry, he, hup, hregion, hk, and_self, if_true]
  | deliverAck he hup hregion hk =>
      simp only [step, World.deliverAck, he, hup, hregion, hk, and_self, if_true]

end RdmaPaxos
