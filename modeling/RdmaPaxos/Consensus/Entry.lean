/-
  RdmaPaxos.Consensus.Entry
  ─────────────────────────
  **REQUESTS, LOG ENTRIES, STORED RECORDS.**

  What a caller hands to `leader_handle_submit_req`, the bytes the leader fills
  into its log entry, and the record that both sides store: the part of the
  entry from `data_size` on, overlaid with `request_record`

      offset  0 ‥  7   data_size
              8        type
             12 ‥ 19   clt_id
             20 ‥      data
-/
import RdmaPaxos.Log.DareLog

namespace RdmaPaxos

open RdmaPaxos.ByteMemory

/-! ## §1. Requests. -/

/-- `request_type` / `mgr_action`. -/
inductive ReqType where
  | tcpConnect | send | close | output | nop | udpConnect
  deriving Repr, DecidableEq

/-- The value of the C enumerator. -/
def ReqType.code : ReqType → Nat
  | .tcpConnect => 1
  | .send => 2
  | .close => 3
  | .output => 4
  | .nop => 5
  | .udpConnect => 6

/-- A C buffer: a size and the bytes behind the pointer. -/
structure Buf where
  size : Nat
  byte : Nat → UInt8

/-- The contents of a buffer. -/
def Buf.toList (b : Buf) : List UInt8 := (List.range b.size).map b.byte

/-- The arguments of one `rsm_op` call.  `clt` is what `*clt_id` holds (unused
for `P_NOP`, whose pointer is `NULL`, and for `P_TCP_CONNECT`, which sets it). -/
structure Request where
  type : ReqType
  data : Buf
  clt : ViewStamp

/-- `*clt_id` as the entry records it: a TCP connect is given its own stamp, a
NOP has no client. -/
def Request.cltId (q : Request) (next : ViewStamp) : ViewStamp :=
  match q.type with
  | .tcpConnect => next
  | .nop => ⟨0, 0⟩
  | _ => q.clt

/-! ## §2. Fields of an entry. -/

/-- A view stamp in memory. -/
def readVs (m : Mem) (a : Nat) : ViewStamp :=
  ⟨UInt32.ofNat (readLE m a 4), UInt32.ofNat (readLE m (a + 4) 4)⟩

/-- A view stamp is written to memory. -/
def writeVs (m : Mem) (a : Nat) (vs : ViewStamp) : Mem :=
  writeLE (writeLE m a 4 vs.viewId.toNat) (a + 4) 4 vs.reqId.toNat

/-- Lines 182–189: `memcpy` of the payload, `msg_vs`, `node_id`, `type`, `clt_id`. -/
def fillEntry (m : Mem) (entry : Nat) (q : Request) (next : ViewStamp) (nodeId : Nat) : Mem :=
  let m := write m (entry + offData) q.data.size q.data.byte
  let m := writeVs m (entry + offMsgVs) next
  let m := writeLE m (entry + offNodeId) 4 nodeId
  let m := writeLE m (entry + offType) 1 q.type.code
  writeVs m (entry + offCltId) (q.cltId next)

/-- Lines 202–203: the marker in the last byte of the entry. -/
def markEntry (m : Mem) (entry : Nat) : Mem :=
  write m (entry + logEntryLen m entry - 1) 1 fun _ => dummyEnd

/-- Lines 312–324: follower `id` prepares its ack in its own copy of the entry;
`hash` is the output hash, taken for `P_OUTPUT` entries only. -/
def replyEntry (m : Mem) (entry id hash : Nat) : Mem :=
  let reply := entry + acceptAckSize * id
  let vs := readVs m (entry + offMsgVs)
  let m' := writeVs (writeLE m (reply + 8) 4 id) reply vs
  if readLE m (entry + offType) 1 = ReqType.code .output then
    writeLE m' (reply + 16) 8 hash
  else m'

/-! ## §3. Stored records. -/

/-- What `store_record` is given: `REQ_RECORD_SIZE - 1` bytes from `data_size` on. -/
def recordAt (m : Mem) (entry : Nat) : Buf :=
  ⟨sizeofRecord + readLE m (entry + offDataSize) 8 - 1, fun i => m (entry + offDataSize + i)⟩

/-- A record as `update_state` reads it. -/
structure Record where
  type : Nat
  clt : ViewStamp
  data : List UInt8
  deriving Repr, DecidableEq

/-- The fields of a stored `request_record`. -/
def Record.decode (b : Buf) : Record where
  type := (b.byte 8).toNat
  clt := readVs b.byte 12
  data := (List.range (readLE b.byte 0 8 - 1)).map fun i => b.byte (20 + i)

/-- The record request `q` stands for once it has been given stamp `next`. -/
def Request.record (q : Request) (next : ViewStamp) : Record where
  type := q.type.code
  clt := q.cltId next
  data := q.data.toList

/-! ## §4. Reading stamps back. -/

/-- A stamp is its eight bytes. -/
theorem readVs_congr {m m' : Mem} {a b : Nat} (h : ∀ i, i < 8 → m (a + i) = m' (b + i)) :
    readVs m a = readVs m' b := by
  have shift : ∀ d k, d + k ≤ 8 → readLE m (a + d) k = readLE m' (b + d) k := by
    intro d k hk
    exact readLE_shift fun i hi => by
      rw [Nat.add_assoc, Nat.add_assoc]; exact h (d + i) (by omega)
  unfold readVs
  rw [shift 4 4 (by omega), show readLE m a 4 = readLE m' b 4 from shift 0 4 (by omega)]

/-- A write elsewhere leaves a stamp alone. -/
theorem readVs_write_disjoint (m : Mem) {a b n : Nat} (src : Nat → UInt8)
    (h : a + 8 ≤ b ∨ b + n ≤ a) : readVs (write m b n src) a = readVs m a :=
  readVs_congr fun i hi => write_outside m src (by omega)

theorem writeVs_outside (m : Mem) {a x : Nat} (vs : ViewStamp) (h : x < a ∨ a + 8 ≤ x) :
    writeVs m a vs x = m x := by
  unfold writeVs writeLE
  rw [write_outside _ _ (by omega), write_outside _ _ (by omega)]

/-- A stamp is read as it was written. -/
theorem readVs_writeVs (m : Mem) (a : Nat) (vs : ViewStamp) :
    readVs (writeVs m a vs) a = vs := by
  have hv : vs.viewId.toNat < 256 ^ 4 := vs.viewId.toNat_lt
  have hr : vs.reqId.toNat < 256 ^ 4 := vs.reqId.toNat_lt
  unfold readVs writeVs
  rw [readLE_writeLE_of_lt _ hr, readLE_writeLE_disjoint _ (by omega), readLE_writeLE_of_lt _ hv]
  simp

theorem readVs_writeVs_disjoint (m : Mem) {a b : Nat} (vs : ViewStamp)
    (h : a + 8 ≤ b ∨ b + 8 ≤ a) : readVs (writeVs m b vs) a = readVs m a :=
  readVs_congr fun i hi => writeVs_outside m vs (by omega)

theorem readLE_writeVs_disjoint (m : Mem) {a k b : Nat} (vs : ViewStamp)
    (h : a + k ≤ b ∨ b + 8 ≤ a) : readLE (writeVs m b vs) a k = readLE m a k :=
  readLE_congr fun i hi => writeVs_outside m vs (by omega)

/-! ## §5. What the steps of the leader and of a follower leave in an entry. -/

section Fill
variable (m : Mem) (entry : Nat) (q : Request) (next : ViewStamp) (nodeId : Nat)

/-- Only the fields from `msg_vs` on and the payload are written. -/
theorem fillEntry_outside {x : Nat}
    (h : x < entry + offMsgVs ∨ entry + offData + q.data.size ≤ x) :
    fillEntry m entry q next nodeId x = m x := by
  simp only [offMsgVs, offData] at h
  simp only [fillEntry, writeLE, offMsgVs, offNodeId, offType, offCltId, offData]
  rw [writeVs_outside _ _ (by omega), write_outside _ _ (by omega), write_outside _ _ (by omega),
    writeVs_outside _ _ (by omega), write_outside _ _ (by omega)]

/-- The stamp of the request. -/
theorem fillEntry_msgVs : readVs (fillEntry m entry q next nodeId) (entry + offMsgVs) = next := by
  simp only [fillEntry, writeLE, offMsgVs, offNodeId, offType, offCltId, offData]
  rw [readVs_writeVs_disjoint _ _ (by omega), readVs_write_disjoint _ _ (by omega),
    readVs_write_disjoint _ _ (by omega), readVs_writeVs]

/-- The commit point is that which was sampled. -/
theorem fillEntry_canbeExed :
    readVs (fillEntry m entry q next nodeId) (entry + offCanbeExed)
      = readVs m (entry + offCanbeExed) := by
  simp only [fillEntry, writeLE, offMsgVs, offCanbeExed, offNodeId, offType, offCltId, offData]
  rw [readVs_writeVs_disjoint _ _ (by omega), readVs_write_disjoint _ _ (by omega),
    readVs_write_disjoint _ _ (by omega), readVs_writeVs_disjoint _ _ (by omega),
    readVs_write_disjoint _ _ (by omega)]

/-- The leader's id. -/
theorem fillEntry_nodeId (h : nodeId < 2 ^ 32) :
    readLE (fillEntry m entry q next nodeId) (entry + offNodeId) 4 = nodeId := by
  simp only [fillEntry, offMsgVs, offNodeId, offType, offCltId, offData]
  rw [readLE_writeVs_disjoint _ _ (by omega), readLE_writeLE_disjoint _ (by omega),
    readLE_writeLE_of_lt _ (by omega)]

/-- The size is that which was written before. -/
theorem fillEntry_dataSize :
    readLE (fillEntry m entry q next nodeId) (entry + offDataSize) 8
      = readLE m (entry + offDataSize) 8 := by
  simp only [fillEntry, writeLE, offMsgVs, offDataSize, offNodeId, offType, offCltId, offData]
  rw [readLE_writeVs_disjoint _ _ (by omega), readLE_write_disjoint _ _ (by omega),
    readLE_write_disjoint _ _ (by omega), readLE_writeVs_disjoint _ _ (by omega),
    readLE_write_disjoint _ _ (by omega)]

/-- The type of the request. -/
theorem fillEntry_type :
    readLE (fillEntry m entry q next nodeId) (entry + offType) 1 = q.type.code := by
  have hcode : q.type.code < 256 ^ 1 := by cases q.type <;> decide
  simp only [fillEntry, offMsgVs, offNodeId, offType, offCltId, offData]
  rw [readLE_writeVs_disjoint _ _ (by omega), readLE_writeLE_of_lt _ hcode]

/-- The client's id; that of a connect is its own stamp. -/
theorem fillEntry_cltId :
    readVs (fillEntry m entry q next nodeId) (entry + offCltId) = q.cltId next :=
  readVs_writeVs _ _ _

/-- The payload. -/
theorem fillEntry_data {j : Nat} (h : j < q.data.size) :
    fillEntry m entry q next nodeId (entry + offData + j) = q.data.byte j := by
  simp only [fillEntry, writeLE, offMsgVs, offNodeId, offType, offCltId, offData]
  rw [writeVs_outside _ _ (by omega), write_outside _ _ (by omega), write_outside _ _ (by omega),
    writeVs_outside _ _ (by omega), write_add _ _ h]

end Fill

/-- A follower's reply stays inside its own ack slot. -/
theorem replyEntry_outside (m : Mem) (entry id hash : Nat) {x : Nat}
    (h : x < entry + acceptAckSize * id ∨ entry + acceptAckSize * id + acceptAckSize ≤ x) :
    replyEntry m entry id hash x = m x := by
  have hbase : writeVs (writeLE m (entry + acceptAckSize * id + 8) 4 id)
      (entry + acceptAckSize * id) (readVs m (entry + offMsgVs)) x = m x := by
    simp only [acceptAckSize] at h ⊢
    rw [writeVs_outside _ _ (by omega)]
    exact write_outside _ _ (by omega)
  simp only [replyEntry]
  split
  · simp only [acceptAckSize] at h hbase ⊢
    unfold writeLE at hbase ⊢
    rw [write_outside _ _ (by omega), hbase]
  · exact hbase

/-- A follower's reply carries the stamp of the entry. -/
theorem replyEntry_stamp (m : Mem) (entry id hash : Nat) :
    readVs (replyEntry m entry id hash) (entry + acceptAckSize * id)
      = readVs m (entry + offMsgVs) := by
  simp only [replyEntry]
  split
  · unfold writeLE
    rw [readVs_write_disjoint _ _ (by omega)]
    exact readVs_writeVs _ _ _
  · exact readVs_writeVs _ _ _

/-- The stamp and the node id a follower's reply carries. -/
theorem replyEntry_slot (m : Mem) (entry id hash : Nat) (hid : id < 2 ^ 32) :
    readVs (replyEntry m entry id hash) (entry + acceptAckSize * id)
        = readVs m (entry + offMsgVs)
      ∧ readLE (replyEntry m entry id hash) (entry + acceptAckSize * id + 8) 4 = id := by
  refine ⟨replyEntry_stamp m entry id hash, ?_⟩
  have hid' : ∀ m' : Mem, ∀ a, readLE (writeVs (writeLE m' (a + 8) 4 id) a
      (readVs m (entry + offMsgVs))) (a + 8) 4 = id := by
    intro m' a
    rw [readLE_writeVs_disjoint _ _ (by omega), readLE_writeLE_of_lt _ (by omega)]
  simp only [replyEntry]
  split
  · unfold writeLE
    rw [readLE_write_disjoint _ _ (by omega)]
    exact hid' _ _
  · exact hid' _ _

end RdmaPaxos
