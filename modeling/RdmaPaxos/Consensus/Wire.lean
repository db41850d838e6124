/-
  RdmaPaxos.Consensus.Wire
  ────────────────────────
  **ONE ENTRY ON THE WIRE AND IN THE STORE.**

  `leader_handle_submit_req` fills an entry, stores the part from `data_size` on
  as a `request_record`, marks the last byte and posts the whole entry as one RDMA
  write; `handle_accept_req` polls the size field and the byte it points at, and
  stores the same part of its own copy.

    • `entryDetected_iff_whole` — whatever prefix of the write has become visible
      over zeroed memory, the poll succeeds exactly if all of it has;
    • `record_round_trip` — both sides store a record that `update_state` decodes
      to the request, reading no byte outside what was stored.

  The three conventions on the length cancel: `data_size` counts the marker, the
  record is stored without the last byte, and the replay sends `data_size - 1`.
-/
import RdmaPaxos.Consensus.Layout
import RdmaPaxos.EvMgr.Hooks

namespace RdmaPaxos

open RdmaPaxos.ByteMemory

/-! ## §1. What the leader has in its entry. -/

/-- The leader's log when it stores the record (lines 149 and 179–189): the size
from the critical section, the commit point, then the other fields. -/
def filledEntry (m : Mem) (entry : Nat) (q : Request) (next committed : ViewStamp)
    (nodeId : UInt32) : Mem :=
  let m := writeLE m (entry + offDataSize) 8 (q.data.size + 1)
  let m := writeVs m (entry + offCanbeExed) committed
  fillEntry m entry q next nodeId.toNat

/-- The leader's log when it posts the entry (lines 202–218). -/
def postedEntry (m : Mem) (entry : Nat) (q : Request) (next committed : ViewStamp)
    (nodeId : UInt32) : Mem :=
  markEntry (filledEntry m entry q next committed nodeId) entry

/-- Everything `handle_accept_req` reads of the entry at `a` is what the leader
was given. -/
structure ReadsAs (m : Mem) (a : Nat) (q : Request) (next committed : ViewStamp)
    (nodeId : UInt32) : Prop where
  msgVs : readVs m (a + offMsgVs) = next
  canbeExed : readVs m (a + offCanbeExed) = committed
  node : readLE m (a + offNodeId) 4 = nodeId.toNat
  dataSize : readLE m (a + offDataSize) 8 = q.data.size + 1
  type : readLE m (a + offType) 1 = q.type.code
  cltId : readVs m (a + offCltId) = q.cltId next
  data : ∀ j < q.data.size, m (a + offData + j) = q.data.byte j

section Leader

variable (m : Mem) (entry : Nat) (q : Request) (next committed : ViewStamp) (nodeId : UInt32)

theorem filledEntry_reads (hlen : q.entryLen < 2 ^ 32) :
    ReadsAs (filledEntry m entry q next committed nodeId) entry q next committed nodeId where
  msgVs := fillEntry_msgVs ..
  canbeExed := by
    unfold filledEntry
    rw [fillEntry_canbeExed, readVs_writeVs]
  node := fillEntry_nodeId _ _ _ _ _ nodeId.toNat_lt
  dataSize := by
    have hsize : q.data.size + 1 < 256 ^ 8 := by
      unfold Request.entryLen at hlen
      omega
    unfold filledEntry
    rw [fillEntry_dataSize, readLE_writeVs_disjoint _ _ (by unfold offDataSize offCanbeExed; omega),
      readLE_writeLE_of_lt _ hsize]
  type := fillEntry_type ..
  cltId := fillEntry_cltId ..
  data := fun _ hj => fillEntry_data _ _ _ _ _ hj

end Leader

theorem ReadsAs.logEntryLen_eq {m : Mem} {a : Nat} {q : Request} {next committed : ViewStamp}
    {nodeId : UInt32} (h : ReadsAs m a q next committed nodeId) (hlen : q.entryLen < 2 ^ 32) :
    logEntryLen m a = q.entryLen := by
  unfold logEntryLen
  rw [h.dataSize]
  exact Nat.mod_eq_of_lt hlen

/-- Fields and payload lie behind the ack slots and in front of the marker. -/
theorem ReadsAs.transfer {m m' : Mem} {a b : Nat} {q : Request} {next committed : ViewStamp}
    {nodeId : UInt32} (h : ReadsAs m a q next committed nodeId)
    (hagree : ∀ t, offMsgVs ≤ t → t < q.entryLen - 1 → m' (b + t) = m (a + t)) :
    ReadsAs m' b q next committed nodeId := by
  have hlast : q.entryLen - 1 = 216 + q.data.size := by unfold Request.entryLen sizeofEntry; omega
  have hLE : ∀ off k, offMsgVs ≤ off → off + k ≤ 216 →
      readLE m' (b + off) k = readLE m (a + off) k := by
    intro off k h₁ h₂
    apply readLE_shift
    intro i hi
    rw [Nat.add_assoc, Nat.add_assoc]
    exact hagree _ (by omega) (by omega)
  have hVs : ∀ off, offMsgVs ≤ off → off + 8 ≤ 216 → readVs m' (b + off) = readVs m (a + off) := by
    intro off h₁ h₂
    apply readVs_congr
    intro i hi
    rw [Nat.add_assoc, Nat.add_assoc]
    exact hagree _ (by omega) (by omega)
  exact
    { msgVs := (hVs _ (by decide) (by decide)).trans h.msgVs
      canbeExed := (hVs _ (by decide) (by decide)).trans h.canbeExed
      node := (hLE _ _ (by decide) (by decide)).trans h.node
      dataSize := (hLE _ _ (by decide) (by decide)).trans h.dataSize
      type := (hLE _ _ (by decide) (by decide)).trans h.type
      cltId := (hVs _ (by decide) (by decide)).trans h.cltId
      data := by
        intro j hj
        rw [← h.data j hj, Nat.add_assoc, Nat.add_assoc]
        exact hagree _ (by unfold offMsgVs offData; omega) (by unfold offData; omega) }

section Posted

variable {m : Mem} {entry : Nat} {q : Request} {next committed : ViewStamp} {nodeId : UInt32}

/-- The marker is the last byte, and the only one line 203 changes. -/
theorem postedEntry_apply (hlen : q.entryLen < 2 ^ 32) (x : Nat) :
    postedEntry m entry q next committed nodeId x
      = if x = entry + q.entryLen - 1 then dummyEnd
        else filledEntry m entry q next committed nodeId x := by
  have hpos : 0 < q.entryLen := by unfold Request.entryLen; omega
  unfold postedEntry markEntry
  rw [(filledEntry_reads m entry q next committed nodeId hlen).logEntryLen_eq hlen]
  by_cases hx : x = entry + q.entryLen - 1
  · rw [if_pos hx, write_inside _ _ (by omega) (by omega)]
  · rw [if_neg hx, write_outside _ _ (by omega)]

theorem postedEntry_reads (hlen : q.entryLen < 2 ^ 32) :
    ReadsAs (postedEntry m entry q next committed nodeId) entry q next committed nodeId := by
  apply (filledEntry_reads m entry q next committed nodeId hlen).transfer
  intro t _ ht
  rw [postedEntry_apply hlen, if_neg (by omega)]

end Posted

/-! ## §2. Torn entries. -/

/-- **Torn entries are never accepted.**  The leader posts the `log_entry_len`
bytes `f` of its entry, whose ack slots may hold anything; the target region in
the follower's log is zero except for the first `n` of them.  The test of
`handle_accept_req` succeeds exactly if the whole entry is visible, and then every
field and payload byte is the leader's.  (The log has 2²⁸ bytes, so no entry
reaches the 2³² at which `log_entry_len` would be cut off.) -/
theorem entryDetected_iff_whole (m₀ : Mem) (entry : Nat) (q : Request) (next committed : ViewStamp)
    (nodeId : UInt32) (hlen : q.entryLen < 2 ^ 32) (f m : Mem) (a n : Nat)
    (hpost : ∀ t, offMsgVs ≤ t → t < q.entryLen →
      f t = postedEntry m₀ entry q next committed nodeId (entry + t))
    (hn : n ≤ logEntryLen (postedEntry m₀ entry q next committed nodeId) entry)
    (hvisible : ∀ t, t < n → m (a + t) = f t)
    (hzero : ∀ t, n ≤ t → t < logEntryLen (postedEntry m₀ entry q next committed nodeId) entry →
      m (a + t) = 0) :
    (entryDetected m a = true
      ↔ n = logEntryLen (postedEntry m₀ entry q next committed nodeId) entry)
    ∧ (entryDetected m a = true → ReadsAs m a q next committed nodeId
        ∧ ∀ t, t < logEntryLen (postedEntry m₀ entry q next committed nodeId) entry →
            m (a + t) = f t) := by
  have hposted : ReadsAs (postedEntry m₀ entry q next committed nodeId) entry q next committed nodeId :=
    postedEntry_reads hlen
  rw [hposted.logEntryLen_eq hlen] at hn hzero ⊢
  have hlast : q.entryLen = 217 + q.data.size := by unfold Request.entryLen sizeofEntry; omega
  have hwhole : n = q.entryLen → ReadsAs m a q next committed nodeId := by
    rintro rfl
    apply hposted.transfer
    intro t ht₁ ht₂
    rw [hvisible t (by omega), hpost t ht₁ (by omega)]
  have hiff : entryDetected m a = true ↔ n = q.entryLen := by
    unfold entryDetected
    rw [Bool.and_eq_true, bne_iff_ne, beq_iff_eq]
    constructor
    · rintro ⟨-, hmark⟩
      by_contra hne
      -- a torn entry: the byte its size field points at has not arrived
      have hsize : readLE f offDataSize 8 = q.data.size + 1 := by
        rw [← hposted.dataSize]
        apply readLE_shift
        intro i hi
        rw [Nat.add_assoc]
        exact hpost _ (by unfold offMsgVs offDataSize; omega) (by unfold offDataSize; omega)
      exact torn_not_marker hsize hlen (show n < q.entryLen by omega)
        (fun t _ ht => hvisible t ht) (fun t _ ht₁ ht₂ => hzero t ht₁ ht₂) hmark
    · intro hn
      have hreads := hwhole hn
      refine ⟨by rw [hreads.dataSize]; omega, ?_⟩
      rw [hreads.logEntryLen_eq hlen, show a + q.entryLen - 1 = a + (q.entryLen - 1) by omega,
        hvisible _ (by omega), hpost _ (by unfold offMsgVs; omega) (by omega),
        postedEntry_apply hlen, if_pos (by omega)]
  refine ⟨hiff, fun hdetected => ?_⟩
  have hn' := hiff.1 hdetected
  exact ⟨hwhole hn', fun t ht => hvisible t (by omega)⟩

/-- Three bytes `f` for client (1,1), the second request. -/
def markersRequest : Request := ⟨.send, ⟨3, fun _ => dummyEnd⟩, ⟨1, 1⟩⟩

/-- The follower's log with the first `n` bytes of that entry. -/
def markersVisible (n : Nat) : Mem :=
  fun x => if x < n then postedEntry zeroed 0 markersRequest ⟨1, 2⟩ ⟨1, 1⟩ 0 x else 0

/-- A payload of marker bytes: 219 of the 220 bytes are not enough, 220 are. -/
theorem entryDetected_iff_whole_markers :
    entryDetected (markersVisible 219) 0 = false ∧ entryDetected (markersVisible 220) 0 = true := by
  have hlen : markersRequest.entryLen < 2 ^ 32 := by decide
  have h220 : logEntryLen (postedEntry zeroed 0 markersRequest ⟨1, 2⟩ ⟨1, 1⟩ 0) 0 = 220 :=
    (postedEntry_reads hlen).logEntryLen_eq hlen
  have hiff : ∀ n, n ≤ 220 → (entryDetected (markersVisible n) 0 = true ↔ n = 220) := by
    intro n hn
    rw [← h220]
    refine (entryDetected_iff_whole zeroed 0 markersRequest ⟨1, 2⟩ ⟨1, 1⟩ 0 hlen
      (postedEntry zeroed 0 markersRequest ⟨1, 2⟩ ⟨1, 1⟩ 0) (markersVisible n) 0 n ?_ ?_ ?_ ?_).1
    · intro t _ _
      rw [Nat.zero_add]
    · rw [h220]
      exact hn
    · intro t ht
      rw [Nat.zero_add, markersVisible, if_pos ht]
    · intro t ht _
      rw [Nat.zero_add, markersVisible, if_neg (by omega)]
  refine ⟨?_, (hiff 220 (by decide)).2 rfl⟩
  rw [← Bool.not_eq_true, hiff 219 (by decide)]
  decide

/-! ## §3. Stored records. -/

/-- Decoding depends on the fields and on `data_size - 1` payload bytes. -/
theorem Record.decode_congr {b b' : Buf} (hfields : ∀ i, i < 20 → b'.byte i = b.byte i)
    (hdata : ∀ j, j < readLE b.byte 0 8 - 1 → b'.byte (20 + j) = b.byte (20 + j)) :
    Record.decode b' = Record.decode b := by
  have hsize : readLE b'.byte 0 8 = readLE b.byte 0 8 :=
    readLE_congr fun i hi => hfields _ (by omega)
  have hclt : readVs b'.byte 12 = readVs b.byte 12 := readVs_congr fun i hi => hfields _ (by omega)
  have hpayload : (List.range (readLE b.byte 0 8 - 1)).map (fun i => b'.byte (20 + i))
      = (List.range (readLE b.byte 0 8 - 1)).map fun i => b.byte (20 + i) := by
    apply List.map_congr_left
    intro j hj
    exact hdata j (List.mem_range.1 hj)
  unfold Record.decode
  rw [hsize, hclt, hfields 8 (by decide), hpayload]

section Record

variable {m : Mem} {a : Nat} {q : Request} {next committed : ViewStamp} {nodeId : UInt32}

/-- `REQ_RECORD_SIZE - 1`: the record without the byte for the marker. -/
theorem ReadsAs.recordAt_size (h : ReadsAs m a q next committed nodeId) :
    (recordAt m a).size = sizeofRecord + q.data.size := by
  show sizeofRecord + readLE m (a + offDataSize) 8 - 1 = _
  rw [h.dataSize]
  omega

theorem ReadsAs.recordAt_dataSize (h : ReadsAs m a q next committed nodeId) :
    readLE (recordAt m a).byte 0 8 = q.data.size + 1 := by
  rw [← h.dataSize]
  apply readLE_shift
  intro i _
  show m (a + offDataSize + (0 + i)) = m (a + offDataSize + i)
  rw [Nat.zero_add]

/-- The overlay of `request_record` on the entry finds the entry's own fields. -/
theorem ReadsAs.decode_recordAt (h : ReadsAs m a q next committed nodeId) :
    Record.decode (recordAt m a) = q.record next := by
  have hclt : readVs (recordAt m a).byte 12 = q.cltId next := by
    rw [← h.cltId]
    apply readVs_congr
    intro i _
    show m (a + 192 + (12 + i)) = m (a + 204 + i)
    rw [show a + 192 + (12 + i) = a + 204 + i by omega]
  have htype : ((recordAt m a).byte 8).toNat = q.type.code := by
    rw [← h.type]
    show (m (a + 192 + 8)).toNat = (m (a + 200)).toNat + 256 * 0
    rw [show a + 192 + 8 = a + 200 by omega]
    omega
  have hdata : (List.range q.data.size).map (fun i => (recordAt m a).byte (20 + i))
      = q.data.toList := by
    apply List.map_congr_left
    intro j hj
    rw [← h.data j (List.mem_range.1 hj)]
    show m (a + 192 + (20 + j)) = m (a + 212 + j)
    rw [show a + 192 + (20 + j) = a + 212 + j by omega]
  unfold Record.decode Request.record
  rw [h.recordAt_dataSize, hclt, htype, Nat.add_sub_cancel, hdata]

/-- Every byte the decoding reads was stored. -/
theorem ReadsAs.decode_inside (h : ReadsAs m a q next committed nodeId) {b : Buf}
    (hb : ∀ i, i < (recordAt m a).size → b.byte i = (recordAt m a).byte i) :
    Record.decode b = Record.decode (recordAt m a) := by
  rw [h.recordAt_size] at hb
  unfold sizeofRecord at hb
  apply Record.decode_congr
  · intro i hi
    exact hb i (by omega)
  · intro j hj
    rw [h.recordAt_dataSize] at hj
    exact hb _ (by omega)

end Record

/-- The `long` at `a`. -/
def readLong (m : Mem) (a : Nat) : Int :=
  if readLE m a 8 < 2 ^ 63 then readLE m a 8 else (readLE m a 8 : Int) - 2 ^ 64

/-- A `long` survives being copied byte by byte. -/
theorem readLong_ofLong {m : Mem} {a : Nat} {index : Int}
    (hm : ∀ j, j < 8 → m (a + j) = (EvMgr.Buf.ofLong index).byte j)
    (hlow : -2 ^ 63 ≤ index) (hhigh : index < 2 ^ 63) : readLong m a = index := by
  have hread : readLE m a 8 = (index % 2 ^ 64).toNat := by
    rw [readLE_of_bytes (v := (index % 2 ^ 64).toNat)]
    · apply Nat.mod_eq_of_lt
      have := Int.emod_lt_of_pos index (show (0 : Int) < 2 ^ 64 by decide)
      have := Int.emod_nonneg index (show (2 ^ 64 : Int) ≠ 0 by decide)
      omega
    · intro i hi
      rw [hm i hi]
      apply UInt8.toNat_inj.1
      rw [leByte_toNat]
      simp [EvMgr.Buf.ofLong]
  unfold readLong
  rw [hread]
  split <;> omega

/-- `b` is the stored record of a request: the length, the fields and the payload
`update_state` and `do_action_send` read, and nothing read past the end. -/
structure RecordOf (b : Buf) (q : Request) (next : ViewStamp) : Prop where
  size : b.size = sizeofRecord + q.data.size
  dataSize : readLE b.byte 0 8 = q.data.size + 1
  type : (Record.decode b).type = q.type.code
  clt : (Record.decode b).clt
    = if q.type = .nop then ⟨0, 0⟩ else if q.type = .tcpConnect then next else q.clt
  data : (Record.decode b).data = q.data.toList
  inside : ∀ b' : Buf, (∀ i, i < b.size → b'.byte i = b.byte i) → Record.decode b' = Record.decode b
  long : ∀ index : Int, -2 ^ 63 ≤ index → index < 2 ^ 63 → q.data = EvMgr.Buf.ofLong index →
    readLong b.byte 20 = index

theorem ReadsAs.recordOf {m : Mem} {a : Nat} {q : Request} {next committed : ViewStamp}
    {nodeId : UInt32} (h : ReadsAs m a q next committed nodeId) : RecordOf (recordAt m a) q next where
  size := h.recordAt_size
  dataSize := h.recordAt_dataSize
  type := by rw [h.decode_recordAt]; rfl
  clt := by
    rw [h.decode_recordAt]
    show q.cltId next = _
    unfold Request.cltId
    cases q.type <;> rfl
  data := by rw [h.decode_recordAt]; rfl
  inside := fun _ hb => h.decode_inside hb
  long := by
    intro index hlow hhigh hdata
    refine readLong_ofLong (fun j hj => ?_) hlow hhigh
    rw [← hdata, ← h.data j (by rw [hdata]; exact hj)]
    show m (a + 192 + (20 + j)) = m (a + 212 + j)
    rw [show a + 192 + (20 + j) = a + 212 + j by omega]

/-- **Records survive the round trip.**  The leader stores the record of its
filled entry; a follower stores that of its copy once the posted bytes `f` are
all visible at `a`, whatever the ack slots hold.  Both records are keyed by the
stamp of the request and are its record, and `handle_accept_req` itself reads the
proposed index from the payload of a `P_OUTPUT`. -/
theorem record_round_trip (m₀ : Mem) (entry : Nat) (q : Request) (next committed : ViewStamp)
    (nodeId : UInt32) (hlen : q.entryLen < 2 ^ 32) (f m : Mem) (a : Nat)
    (hpost : ∀ t, offMsgVs ≤ t → t < q.entryLen →
      f t = postedEntry m₀ entry q next committed nodeId (entry + t))
    (hvisible : ∀ t, offMsgVs ≤ t → t < q.entryLen → m (a + t) = f t) :
    vstol (readVs m (a + offMsgVs)) = vstol next
    ∧ RecordOf (recordAt (filledEntry m₀ entry q next committed nodeId) entry) q next
    ∧ RecordOf (recordAt m a) q next
    ∧ ∀ index : Int, -2 ^ 63 ≤ index → index < 2 ^ 63 → q.data = EvMgr.Buf.ofLong index →
        readLong m (a + offData) = index := by
  have hposted : ReadsAs (postedEntry m₀ entry q next committed nodeId) entry q next committed nodeId :=
    postedEntry_reads hlen
  have hcopy : ReadsAs m a q next committed nodeId := by
    apply hposted.transfer
    intro t ht₁ ht₂
    rw [hvisible t ht₁ (by omega), hpost t ht₁ (by omega)]
  refine ⟨by rw [hcopy.msgVs],
    (filledEntry_reads m₀ entry q next committed nodeId hlen).recordOf, hcopy.recordOf, ?_⟩
  intro index hlow hhigh hdata
  refine readLong_ofLong (fun j hj => ?_) hlow hhigh
  rw [← hdata, ← hcopy.data j (by rw [hdata]; exact hj)]

/-- The three marker bytes come back as they were sent. -/
theorem record_round_trip_markers :
    (Record.decode (recordAt (markersVisible 220) 0)).data = [dummyEnd, dummyEnd, dummyEnd]
      ∧ (recordAt (markersVisible 220) 0).size = 27 := by
  obtain ⟨-, -, hcopy, -⟩ := record_round_trip zeroed 0 markersRequest ⟨1, 2⟩ ⟨1, 1⟩ 0 (by decide)
    (postedEntry zeroed 0 markersRequest ⟨1, 2⟩ ⟨1, 1⟩ 0) (markersVisible 220) 0
    (fun t _ _ => by rw [Nat.zero_add])
    (fun t _ ht => by rw [Nat.zero_add, markersVisible, if_pos (show t < 220 from ht)])
  exact ⟨hcopy.data, hcopy.size⟩

end RdmaPaxos
