/-
  RdmaPaxos.Consensus.Layout
  ──────────────────────────
  **WHERE THE ENTRIES OF ONE LAP LIE, AND WHEN A FOLLOWER SEES ONE.**

  As long as a log does not wrap, the entries of a sequence of requests lie one
  behind the other from offset 0: entry `k` starts at `startOf rs k`.

  §1  the offsets `startOf`, disjointness of the entries;
  §2  `EntryBytes` — what the bytes of an entry say at each stage of its call, and
      `HeadBytes`, what they say once the fields are there;
  §3  `LogAt` — a log whose next entry is number `k`;
  §4  `ReplicaMem` — a follower's memory under partially visible entry writes;
  §5  what a follower knows of an entry at its program counters: `SizeBegun`, some of the
      size is there, `Measured`, a length was computed from it, and `MarkerSeen`, a marker was
      found at that length.  A size read while it was arriving is too small, and the
      byte it leads to is one of the payload: then the fields are there but the entry
      need not be.
-/
import RdmaPaxos.Consensus.World

namespace RdmaPaxos

open RdmaPaxos.ByteMemory

/-! ## §1. Offsets. -/

/-- `log_entry_len` of the entry of a request. -/
def Request.entryLen (q : Request) : Nat := sizeofEntry + (q.data.size + 1)

/-- The offset of entry `k` behind the entries of the requests before it. -/
def startOf (rs : List Request) (k : Nat) : Nat := ((rs.take k).map Request.entryLen).sum

/-- The requests submitted so far, in the order of their stamps. -/
def World.requests (w : World) : List Request := w.calls.map Call.req

@[simp] theorem startOf_zero (rs : List Request) : startOf rs 0 = 0 := rfl

/-- An entry starts where the one before it ends. -/
theorem startOf_succ {rs : List Request} {k : Nat} {q : Request} (h : rs[k]? = some q) :
    startOf rs (k + 1) = startOf rs k + q.entryLen := by
  unfold startOf
  rw [List.take_add_one, h]
  simp

/-- A new entry moves no earlier one. -/
theorem startOf_append {rs : List Request} {k : Nat} (h : k ≤ rs.length) (q : Request) :
    startOf (rs ++ [q]) k = startOf rs k := by
  unfold startOf
  rw [List.take_append_of_le_length h]

/-- An entry ends before every later one begins. -/
theorem startOf_add_le {rs : List Request} {j k : Nat} {q : Request} (h : rs[j]? = some q)
    (hjk : j < k) : startOf rs j + q.entryLen ≤ startOf rs k := by
  induction k with
  | zero => omega
  | succ k ih =>
      rcases Nat.lt_succ_iff_lt_or_eq.mp hjk with hlt | rfl
      · have hstep : startOf rs k ≤ startOf rs (k + 1) := by
          cases hk : rs[k]? with
          | none =>
              have hlen : rs.length ≤ k := List.getElem?_eq_none_iff.mp hk
              unfold startOf
              rw [List.take_of_length_le hlen, List.take_of_length_le (by omega)]
          | some r => rw [startOf_succ hk]; omega
        exact (ih hlt).trans hstep
      · rw [startOf_succ h]

/-- Entries start in the order of their requests. -/
theorem startOf_le {rs : List Request} {j k : Nat} (hjk : j ≤ k) (hk : k ≤ rs.length) :
    startOf rs j ≤ startOf rs k := by
  rcases Nat.eq_or_lt_of_le hjk with rfl | hlt
  · exact Nat.le_refl _
  · have hj : rs[j]? = some rs[j] := List.getElem?_eq_getElem (by omega)
    have := startOf_add_le hj hlt
    omega

/-- Entries are not empty, so different positions are different offsets. -/
theorem startOf_inj {rs : List Request} {j k : Nat} (hj : j ≤ rs.length) (hk : k ≤ rs.length)
    (h : startOf rs j = startOf rs k) : j = k := by
  have hlt : ∀ {a b : Nat}, a < b → b ≤ rs.length → startOf rs a < startOf rs b := by
    intro a b hab hb
    have hget : rs[a]? = some rs[a] := List.getElem?_eq_getElem (by omega)
    have hend := startOf_add_le hget hab
    unfold Request.entryLen at hend
    omega
  rcases Nat.lt_trichotomy j k with hjk | rfl | hkj
  · have := hlt hjk hk
    omega
  · rfl
  · have := hlt hkj hj
    omega

/-- Every entry takes its header and the marker at least. -/
theorem le_startOf (rs : List Request) {k : Nat} (hk : k ≤ rs.length) :
    k * (sizeofEntry + 1) ≤ startOf rs k := by
  induction k with
  | zero => omega
  | succ k ih =>
      have hget : rs[k]? = some rs[k] := List.getElem?_eq_getElem (by omega)
      have := ih (by omega)
      rw [startOf_succ hget, Request.entryLen, Nat.add_mul]
      omega

/-- Two entries that share an offset are one. -/
theorem startOf_unique {rs : List Request} {j k x : Nat} {q r : Request}
    (hj : rs[j]? = some q) (hk : rs[k]? = some r)
    (h₁ : startOf rs j ≤ x) (h₂ : x < startOf rs j + q.entryLen)
    (h₃ : startOf rs k ≤ x) (h₄ : x < startOf rs k + r.entryLen) : j = k := by
  rcases Nat.lt_trichotomy j k with hlt | heq | hgt
  · have := startOf_add_le hj hlt
    omega
  · exact heq
  · have := startOf_add_le hk hgt
    omega

/-! ## §2. The bytes of an entry. -/

/-- The bytes `f` of the entry of request `id`, submitted by node `l` when at
most `B` requests were committed: `stage` counts what its call has written so
far (1: the commit point, 2: all fields, 4: the marker). -/
structure EntryBytes (B stage l id : Nat) (q : Request) (f : Mem) : Prop where
  dataSize : readLE f offDataSize 8 = q.data.size + 1
  canbeExed : 1 ≤ stage → ∃ x, x ≤ id ∧ x ≤ B ∧ readVs f offCanbeExed = ⟨1, UInt32.ofNat x⟩
  msgVs : 2 ≤ stage → readVs f offMsgVs = stampOf id
  nodeId : 2 ≤ stage → readLE f offNodeId 4 = l
  type : 2 ≤ stage → readLE f offType 1 = q.type.code
  cltId : 2 ≤ stage → readVs f offCltId = q.cltId (stampOf id)
  data : 2 ≤ stage → ∀ j < q.data.size, f (offData + j) = q.data.byte j
  marker : 4 ≤ stage → f (q.entryLen - 1) = dummyEnd

/-- The entry at offset `a` of a memory, as bytes of their own. -/
def entryAt (m : Mem) (a : Nat) : Mem := fun t => m (a + t)

/-- A field of an entry, read in the log. -/
theorem readLE_entryAt (m : Mem) (a off k : Nat) :
    readLE (entryAt m a) off k = readLE m (a + off) k :=
  readLE_shift fun i _ => by rw [entryAt, Nat.add_assoc]

/-- A stamp of an entry, read in the log. -/
theorem readVs_entryAt (m : Mem) (a off : Nat) :
    readVs (entryAt m a) off = readVs m (a + off) :=
  readVs_congr fun i _ => by rw [entryAt, Nat.add_assoc]

namespace EntryBytes

variable {B stage l id : Nat} {q : Request} {f g : Mem}

/-- Only the bytes behind the ack slots matter, and the marker only once it is
written. -/
theorem transfer (h : EntryBytes B stage l id q f) {stage' : Nat} (hle : stage' ≤ stage ∨ 2 ≤ stage)
    (hfg : ∀ t, offMsgVs ≤ t → t < q.entryLen - 1 → g t = f t)
    (hmark : 4 ≤ stage' → g (q.entryLen - 1) = dummyEnd) : EntryBytes B stage' l id q g := by
  have hlen : q.entryLen = 217 + q.data.size := by unfold Request.entryLen sizeofEntry; omega
  have hLE : ∀ a k, offMsgVs ≤ a → a + k ≤ 216 → readLE g a k = readLE f a k := by
    intro a k ha hk
    exact readLE_congr fun i hi => hfg _ (by omega) (by omega)
  have hVs : ∀ a, offMsgVs ≤ a → a + 8 ≤ 216 → readVs g a = readVs f a := by
    intro a ha hk
    exact readVs_congr fun i hi => hfg _ (by omega) (by omega)
  refine ⟨?_, fun hs => ?_, fun hs => ?_, fun hs => ?_, fun hs => ?_, fun hs => ?_,
    fun hs j hj => ?_, hmark⟩
  · rw [hLE _ _ (by decide) (by decide)]; exact h.dataSize
  · rw [hVs _ (by decide) (by decide)]; exact h.canbeExed (by omega)
  · rw [hVs _ (by decide) (by decide)]; exact h.msgVs (by omega)
  · rw [hLE _ _ (by decide) (by decide)]; exact h.nodeId (by omega)
  · rw [hLE _ _ (by decide) (by decide)]; exact h.type (by omega)
  · rw [hVs _ (by decide) (by decide)]; exact h.cltId (by omega)
  · rw [hfg _ (by simp only [offMsgVs, offData]; omega) (by simp only [offData]; omega)]
    exact h.data (by omega) j hj

theorem congr (h : EntryBytes B stage l id q f)
    (hfg : ∀ t, offMsgVs ≤ t → t < q.entryLen → g t = f t) : EntryBytes B stage l id q g := by
  have hlen : q.entryLen = 217 + q.data.size := by unfold Request.entryLen sizeofEntry; omega
  refine h.transfer (.inl (Nat.le_refl _)) (fun t h1 h2 => hfg t h1 (by omega)) fun hs => ?_
  rw [hfg _ (by unfold offMsgVs; omega) (by omega)]
  exact h.marker hs

/-- What holds at a stage of the call holds at the earlier ones. -/
theorem mono (h : EntryBytes B stage l id q f) {stage' : Nat}
    (hle : stage' ≤ stage ∨ 4 ≤ stage ∨ (2 ≤ stage ∧ stage' ≤ 3)) : EntryBytes B stage' l id q f :=
  h.transfer (by omega) (fun _ _ _ => rfl) fun hs => h.marker (by omega)

/-- More requests are committed; the commit point in the entry is below all the same. -/
theorem raise (h : EntryBytes B stage l id q f) {B' : Nat} (hB : B ≤ B') :
    EntryBytes B' stage l id q f := by
  refine ⟨h.dataSize, fun hs => ?_, h.msgVs, h.nodeId, h.type, h.cltId, h.data, h.marker⟩
  obtain ⟨x, hid, hx, hvs⟩ := h.canbeExed hs
  exact ⟨x, hid, hx.trans hB, hvs⟩

theorem logEntryLen_eq {m : Mem} {a : Nat} (h : EntryBytes B stage l id q (entryAt m a))
    (hlen : q.entryLen ≤ logSize) : logEntryLen m a = q.entryLen := by
  have hsize := h.dataSize
  rw [readLE_entryAt] at hsize
  unfold logEntryLen
  rw [hsize]
  unfold Request.entryLen logSize at *
  omega

/-- The record taken from a filled entry is the request's. -/
theorem decode_recordAt {m : Mem} {a : Nat} (h : EntryBytes B stage l id q (entryAt m a))
    (hs : 2 ≤ stage) : Record.decode (recordAt m a) = q.record (stampOf id) := by
  have hsize : readLE (recordAt m a).byte 0 8 = q.data.size + 1 := by
    rw [← h.dataSize]
    refine readLE_shift fun i _ => ?_
    show m (a + 192 + (0 + i)) = m (a + (192 + i))
    rw [Nat.zero_add, Nat.add_assoc]
  have hclt : readVs (recordAt m a).byte 12 = q.cltId (stampOf id) := by
    rw [← h.cltId hs]
    refine readVs_congr fun i _ => ?_
    show m (a + 192 + (12 + i)) = m (a + (204 + i))
    rw [show a + 192 + (12 + i) = a + (204 + i) by omega]
  have htype : ((recordAt m a).byte 8).toNat = q.type.code := by
    rw [← h.type hs]
    show (m (a + 192 + 8)).toNat = (m (a + 200)).toNat + 256 * 0
    rw [show a + 192 + 8 = a + 200 by omega]
    omega
  have hdata : (List.range q.data.size).map (fun i => (recordAt m a).byte (20 + i))
      = q.data.toList := by
    apply List.map_congr_left
    intro j hj
    rw [← h.data hs j (List.mem_range.mp hj)]
    show m (a + 192 + (20 + j)) = m (a + (212 + j))
    rw [show a + 192 + (20 + j) = a + (212 + j) by omega]
  unfold Record.decode Request.record
  rw [hsize, hclt, htype, Nat.add_sub_cancel, hdata]

end EntryBytes

/-- The bytes `f` of the entry of request `id` as far as the fields go. -/
structure HeadBytes (B l id : Nat) (q : Request) (f : Mem) : Prop where
  dataSize : readLE f offDataSize 8 = q.data.size + 1
  canbeExed : ∃ x, x ≤ id ∧ x ≤ B ∧ readVs f offCanbeExed = ⟨1, UInt32.ofNat x⟩
  msgVs : readVs f offMsgVs = stampOf id
  nodeId : readLE f offNodeId 4 = l
  type : readLE f offType 1 = q.type.code
  cltId : readVs f offCltId = q.cltId (stampOf id)

/-- All fields of a finished entry, where the bytes up to the payload are the same. -/
theorem EntryBytes.head {B l id : Nat} {q : Request} {f g : Mem} (h : EntryBytes B 4 l id q f)
    (hfg : ∀ t, offMsgVs ≤ t → t < offData → g t = f t) : HeadBytes B l id q g := by
  have hLE : ∀ a k, offMsgVs ≤ a → a + k ≤ offData → readLE g a k = readLE f a k := by
    intro a k ha hk
    exact readLE_congr fun i hi => hfg _ (by omega) (by omega)
  have hVs : ∀ a, offMsgVs ≤ a → a + 8 ≤ offData → readVs g a = readVs f a := by
    intro a ha hk
    exact readVs_congr fun i hi => hfg _ (by omega) (by omega)
  refine ⟨?_, ?_, ?_, ?_, ?_, ?_⟩
  · rw [hLE _ _ (by decide) (by decide)]; exact h.dataSize
  · rw [hVs _ (by decide) (by decide)]; exact h.canbeExed (by decide)
  · rw [hVs _ (by decide) (by decide)]; exact h.msgVs (by decide)
  · rw [hLE _ _ (by decide) (by decide)]; exact h.nodeId (by decide)
  · rw [hLE _ _ (by decide) (by decide)]; exact h.type (by decide)
  · rw [hVs _ (by decide) (by decide)]; exact h.cltId (by decide)

/-- The same record, but for the bytes of the payload. -/
structure Record.SameHead (r r' : Record) : Prop where
  type : r.type = r'.type
  clt : r.clt = r'.clt
  length : r.data.length = r'.data.length

theorem Record.SameHead.refl (r : Record) : r.SameHead r := ⟨rfl, rfl, rfl⟩

namespace HeadBytes

variable {B l id : Nat} {q : Request} {m : Mem} {a : Nat}

theorem logEntryLen_eq (h : HeadBytes B l id q (entryAt m a)) (hlen : q.entryLen ≤ logSize) :
    logEntryLen m a = q.entryLen := by
  have hsize := h.dataSize
  rw [readLE_entryAt] at hsize
  unfold logEntryLen
  rw [hsize]
  unfold Request.entryLen logSize at *
  omega

/-- The record taken from the entry, whatever its payload is. -/
theorem decode_recordAt (h : HeadBytes B l id q (entryAt m a)) :
    (Record.decode (recordAt m a)).SameHead (q.record (stampOf id)) := by
  have hsize : readLE (recordAt m a).byte 0 8 = q.data.size + 1 := by
    rw [← h.dataSize]
    refine readLE_shift fun i _ => ?_
    show m (a + 192 + (0 + i)) = m (a + (192 + i))
    rw [Nat.zero_add, Nat.add_assoc]
  have hclt : readVs (recordAt m a).byte 12 = q.cltId (stampOf id) := by
    rw [← h.cltId]
    refine readVs_congr fun i _ => ?_
    show m (a + 192 + (12 + i)) = m (a + (204 + i))
    rw [show a + 192 + (12 + i) = a + (204 + i) by omega]
  have htype : ((recordAt m a).byte 8).toNat = q.type.code := by
    rw [← h.type]
    show (m (a + 192 + 8)).toNat = (m (a + 200)).toNat + 256 * 0
    rw [show a + 192 + 8 = a + 200 by omega]
    omega
  refine ⟨htype, hclt, ?_⟩
  unfold Record.decode Request.record Buf.toList
  rw [hsize, List.length_map, List.length_map, List.length_range, List.length_range, Nat.add_sub_cancel]

end HeadBytes

/-! ## §3. The position of a log. -/

/-- The next entry can be placed, or read, without going back to offset 0:
its header fits, or the log is as `log_new` made it. -/
def NotWrapping (log : DareLog) : Prop :=
  logFitEntryHeader log log.endOff = true ∨ log.tailOff = log.len

instance (log : DareLog) : Decidable (NotWrapping log) :=
  inferInstanceAs (Decidable (_ ∨ _))

/-- The log holds, or has been read up to, the first `k` entries. -/
structure LogAt (rs : List Request) (log : DareLog) (k : Nat) : Prop where
  len : log.len = logSize
  offs : (k = 0 ∧ log.tailOff = logSize ∧ (log.endOff = logSize ∨ log.endOff = 0))
    ∨ (0 < k ∧ log.tailOff = startOf rs (k - 1) ∧ log.tailOff < logSize
        ∧ log.endOff = startOf rs k)

namespace LogAt

variable {rs : List Request} {log : DareLog} {k : Nat}

theorem new (rs : List Request) : LogAt rs logNew 0 := ⟨rfl, .inl ⟨rfl, rfl, .inl rfl⟩⟩

/-- A new request leaves the position of every log. -/
theorem append (h : LogAt rs log k) (hk : k ≤ rs.length) (q : Request) :
    LogAt (rs ++ [q]) log k := by
  refine ⟨h.len, ?_⟩
  rcases h.offs with h0 | ⟨hpos, ht, hlt, he⟩
  · exact .inl h0
  · rw [← startOf_append (by omega : k - 1 ≤ rs.length) q] at ht
    rw [← startOf_append hk q] at he
    exact .inr ⟨hpos, ht, hlt, he⟩

/-- `log_get_entry` returns the next entry's offset. -/
theorem getEntry (h : LogAt rs log k) (hw : NotWrapping log) :
    logGetEntry log log.endOff = startOf rs k := by
  unfold logGetEntry
  rcases h.offs with ⟨rfl, -, hend | hend⟩ | ⟨hpos, ht, hlt, he⟩
  · rw [hend, ← h.len, not_fit_end h.len]
    rfl
  · rw [hend, fit_start h.len]
    rfl
  · rcases hw with hfit | htail
    · rw [hfit, he]
      rfl
    · rw [h.len] at htail
      omega

/-- `log_add_new_entry` returns the next entry's offset. -/
theorem addNewEntry (h : LogAt rs log k) (hw : NotWrapping log) :
    logAddNewEntry log = startOf rs k := by
  unfold logAddNewEntry isLogEmpty
  rcases h.offs with ⟨rfl, -, hend | hend⟩ | ⟨hpos, ht, hlt, he⟩
  · rw [hend, h.len]
    rfl
  · rw [hend, ite_self]
    rfl
  · rcases hw with hfit | htail
    · have hne : log.endOff ≠ log.len := by
        intro heq
        rw [heq, not_fit_end h.len] at hfit
        cases hfit
      rw [if_neg (by simpa using hne), he]
    · rw [h.len] at htail
      omega

/-- The log after entry `k`. -/
theorem next {k len : Nat} (hlen : len = logSize) (hlt : startOf rs k < logSize) (m : Mem) :
    LogAt rs ⟨startOf rs (k + 1), startOf rs k, len, m⟩ (k + 1) :=
  ⟨hlen, .inr ⟨Nat.succ_pos _, rfl, hlt, rfl⟩⟩

/-- `log_get_entry` stores the offset back. -/
theorem readTo (h : LogAt rs log k) (hw : NotWrapping log) :
    LogAt rs { log with endOff := logGetEntry log log.endOff } k := by
  refine ⟨h.len, ?_⟩
  show (_ ∧ log.tailOff = _ ∧ (logGetEntry log log.endOff = _ ∨ logGetEntry log log.endOff = _))
    ∨ (_ ∧ log.tailOff = _ ∧ _ ∧ logGetEntry log log.endOff = _)
  rw [h.getEntry hw]
  rcases h.offs with ⟨rfl, ht, -⟩ | ⟨hpos, ht, hlt, -⟩
  · exact .inl ⟨rfl, ht, .inr rfl⟩
  · exact .inr ⟨hpos, ht, hlt, rfl⟩

end LogAt

/-! ## §4. A follower's memory. -/

/-- The memory of a follower's log `region` while entry writes arrive: visible
bytes are there (behind the ack slots, which hold the follower's own replies),
and nothing else is. -/
structure ReplicaMem (rs : List Request) (writes : Nat → Option EntryWrite) (region : Nat)
    (m : Mem) : Prop where
  arrived : ∀ k e, writes k = some e → e.region = region →
    ∀ t, offMsgVs ≤ t → t < e.visible → m (startOf rs k + t) = e.byte t
  untouched : ∀ x, m x ≠ 0 → ∃ k q, rs[k]? = some q ∧ startOf rs k ≤ x
    ∧ (x < startOf rs k + offMsgVs
      ∨ ∃ e, writes k = some e ∧ e.region = region ∧ x < startOf rs k + e.visible)

/-- A write of entry `id` as the leader posts it. -/
structure WriteBytes (B : Nat) (rs : List Request) (l id : Nat) (e : EntryWrite) : Prop where
  off : e.off = startOf rs id
  visible : e.visible ≤ e.len
  bytes : ∃ q, rs[id]? = some q ∧ e.len = q.entryLen ∧ startOf rs id + q.entryLen ≤ logSize
    ∧ EntryBytes B 4 l id q e.byte

/-- What a load of the size field finds once `v` bytes of the entry have arrived. -/
def Request.sizeSeen (q : Request) (v : Nat) : Nat :=
  (q.data.size + 1) % 256 ^ min 8 (v - offDataSize)

namespace Request

/-- The size has one byte that is not zero, so it cannot be seen in part. -/
def Short (q : Request) : Prop := q.data.size + 1 < 256

/-- Every request. -/
def Any (_ : Request) : Prop := True

variable {q : Request} {v v' : Nat}

/-- A part of a size is no more than the size. -/
theorem sizeSeen_le (q : Request) (v : Nat) : q.sizeSeen v ≤ q.data.size + 1 := Nat.mod_le _ _

/-- All eight bytes of a size are the size. -/
theorem sizeSeen_whole (hq : q.entryLen ≤ logSize) (hv : offDataSize + 8 ≤ v) :
    q.sizeSeen v = q.data.size + 1 := by
  unfold sizeSeen
  rw [Nat.min_eq_left (by omega)]
  unfold entryLen logSize at hq
  exact Nat.mod_eq_of_lt (by omega)

/-- A size of one byte is there or not. -/
theorem sizeSeen_short (hq : q.Short) (hv : q.sizeSeen v ≠ 0) : q.sizeSeen v = q.data.size + 1 := by
  unfold sizeSeen at hv ⊢
  -- at least one byte is there, and it is all of the size
  have hone : 1 ≤ min 8 (v - offDataSize) := by
    by_contra hlt
    rw [show min 8 (v - offDataSize) = 0 by omega, Nat.pow_zero, Nat.mod_one] at hv
    exact hv rfl
  have hpow : 256 ^ 1 ≤ 256 ^ min 8 (v - offDataSize) := Nat.pow_le_pow_right (by decide) hone
  unfold Short at hq
  exact Nat.mod_eq_of_lt (by omega)

/-- What has been seen of a size stays: more bytes only make it larger. -/
theorem sizeSeen_mono (hle : v ≤ v') (hv : q.sizeSeen v ≠ 0) : q.sizeSeen v' ≠ 0 := by
  unfold sizeSeen at hv ⊢
  intro hzero
  have hdvd : 256 ^ min 8 (v - offDataSize) ∣ 256 ^ min 8 (v' - offDataSize) :=
    Nat.pow_dvd_pow 256 (by omega)
  exact hv (Nat.mod_eq_zero_of_dvd (hdvd.trans (Nat.dvd_of_mod_eq_zero hzero)))

end Request

/-- The size field of an entry of which `v` bytes are visible. -/
theorem torn_size {m f : Mem} {a s v : Nat} (hs : readLE f offDataSize 8 = s + 1)
    (hvis : ∀ t, offMsgVs ≤ t → t < v → m (a + t) = f t)
    (hzero : ∀ t, offMsgVs ≤ t → v ≤ t → t < sizeofEntry + (s + 1) → m (a + t) = 0) :
    readLE m (a + offDataSize) 8 = (s + 1) % 256 ^ min 8 (v - offDataSize) := by
  unfold offMsgVs sizeofEntry offDataSize at *
  refine readLE_torn (by omega) (fun i hi => ?_) (fun i h1 h2 => ?_)
  · rw [Nat.add_assoc, hvis _ (by omega) (by omega),
      byte_of_readLE (m := f) (show i < 8 by omega), hs]
  · rw [Nat.add_assoc]
    exact hzero _ (by omega) (by omega) (by omega)

/-- While an entry is torn, the byte its size field points at lies inside it
and is still zero: a partially visible size is a remainder of the true one. -/
theorem torn_not_marker {m f : Mem} {a s v : Nat} (hs : readLE f offDataSize 8 = s + 1)
    (hlen : sizeofEntry + (s + 1) < 2 ^ 32) (hv : v < sizeofEntry + (s + 1))
    (hvis : ∀ t, offMsgVs ≤ t → t < v → m (a + t) = f t)
    (hzero : ∀ t, offMsgVs ≤ t → v ≤ t → t < sizeofEntry + (s + 1) → m (a + t) = 0) :
    m (a + logEntryLen m a - 1) ≠ dummyEnd := by
  have hsize := torn_size hs hvis hzero
  simp only [sizeofEntry, offMsgVs, offDataSize] at hlen hv hvis hzero hsize
  -- `j` bytes of the size field are visible
  obtain ⟨j, hj⟩ : ∃ j, j = min 8 (v - 192) := ⟨_, rfl⟩
  rw [← hj] at hsize
  have hle : (s + 1) % 256 ^ j ≤ s + 1 := Nat.mod_le _ _
  have hfull : j = 8 → (s + 1) % 256 ^ j = s + 1 := by
    rintro rfl
    exact Nat.mod_eq_of_lt (by omega)
  have hpos : logEntryLen m a = 216 + (s + 1) % 256 ^ j := by
    unfold logEntryLen sizeofEntry offDataSize
    rw [hsize]
    omega
  rw [hpos, show a + (216 + (s + 1) % 256 ^ j) - 1 = a + (215 + (s + 1) % 256 ^ j) by omega,
    hzero _ (by omega) (by omega) (by omega)]
  decide

/-- More requests are committed. -/
theorem WriteBytes.raise {B B' l id : Nat} {rs : List Request} {e : EntryWrite}
    (h : WriteBytes B rs l id e) (hB : B ≤ B') : WriteBytes B' rs l id e := by
  obtain ⟨q, hq, hlen, hin, hbytes⟩ := h.bytes
  exact ⟨h.off, h.visible, q, hq, hlen, hin, hbytes.raise hB⟩

namespace ReplicaMem

variable {rs : List Request} {writes : Nat → Option EntryWrite} {region l B : Nat} {m : Mem}

/-- Behind the last entry, nothing has been written. -/
theorem zero_beyond (h : ReplicaMem rs writes region m)
    (hw : ∀ k e, writes k = some e → WriteBytes B rs l k e) {x : Nat}
    (hx : startOf rs rs.length ≤ x) : m x = 0 := by
  by_contra hne
  obtain ⟨k, q, hq, -, hin⟩ := h.untouched x hne
  have hk : k < rs.length := (List.getElem?_eq_some_iff.mp hq).1
  have hend := startOf_add_le hq hk
  rcases hin with hack | ⟨e, he, -, hvis⟩
  · unfold Request.entryLen sizeofEntry at hend
    unfold offMsgVs at hack
    omega
  · obtain ⟨q', hq', hlen, -, -⟩ := (hw k e he).bytes
    have := (hw k e he).visible
    rw [hq] at hq'
    cases hq'
    omega

/-- Behind the ack slots, a byte of entry `k` that has not arrived is zero. -/
theorem zero_hidden (h : ReplicaMem rs writes region m)
    (hw : ∀ k e, writes k = some e → WriteBytes B rs l k e) {k t : Nat} {q : Request}
    (hq : rs[k]? = some q) (ht : offMsgVs ≤ t) (htlen : t < q.entryLen)
    (hhid : ∀ e, writes k = some e → e.region = region → e.visible ≤ t) :
    m (startOf rs k + t) = 0 := by
  by_contra hne
  obtain ⟨j, r, hr, hle, hin⟩ := h.untouched _ hne
  have hlen : startOf rs k + t < startOf rs j + r.entryLen := by
    rcases hin with hack | ⟨e, he, -, hvis⟩
    · unfold offMsgVs at hack
      unfold Request.entryLen sizeofEntry
      omega
    · obtain ⟨r', hr', hel, -, -⟩ := (hw j e he).bytes
      have := (hw j e he).visible
      rw [hr] at hr'
      cases hr'
      omega
  obtain rfl : j = k := startOf_unique hr hq hle hlen (by omega) (by omega)
  rcases hin with hack | ⟨e, he, hreg, hvis⟩
  · omega
  · have := hhid e he hreg
    omega

/-- The size field of an entry some of which has arrived. -/
theorem size_eq (h : ReplicaMem rs writes region m)
    (hw : ∀ k e, writes k = some e → WriteBytes B rs l k e) {k : Nat} {e : EntryWrite} {q : Request}
    (he : writes k = some e) (hreg : e.region = region) (hq : rs[k]? = some q) :
    readLE m (startOf rs k + offDataSize) 8 = q.sizeSeen e.visible := by
  obtain ⟨q', hq', -, -, hbytes⟩ := (hw k e he).bytes
  rw [hq] at hq'
  cases hq'
  refine torn_size hbytes.dataSize (h.arrived k e he hreg) fun t h1 h2 h3 => ?_
  refine h.zero_hidden hw hq h1 h3 fun e' he' _ => ?_
  rw [he] at he'
  cases he'
  exact h2

/-- Where nothing was written to this log, no size is found. -/
theorem size_zero (h : ReplicaMem rs writes region m)
    (hw : ∀ k e, writes k = some e → WriteBytes B rs l k e) {k : Nat} (hk : k ≤ rs.length)
    (hno : ∀ e, writes k = some e → e.region ≠ region) :
    readLE m (startOf rs k + offDataSize) 8 = 0 := by
  refine readLE_zeroed fun i hi => ?_
  rw [Nat.add_assoc]
  rcases Nat.eq_or_lt_of_le hk with rfl | hlt
  · exact h.zero_beyond hw (by omega)
  · refine h.zero_hidden hw (List.getElem?_eq_getElem hlt) ?_ ?_ fun e he hreg => ?_
    · unfold offMsgVs offDataSize
      omega
    · unfold Request.entryLen sizeofEntry offDataSize
      omega
    · exact absurd hreg (hno e he)

/-- An entry that is there in full reads as its write. -/
theorem entryBytes (h : ReplicaMem rs writes region m)
    (hw : ∀ k e, writes k = some e → WriteBytes B rs l k e) {k : Nat} {e : EntryWrite}
    (he : writes k = some e) (hreg : e.region = region) (hvis : e.len ≤ e.visible)
    {q : Request} (hq : rs[k]? = some q) : EntryBytes B 4 l k q (entryAt m (startOf rs k)) := by
  obtain ⟨q', hq', hlen, -, hbytes⟩ := (hw k e he).bytes
  rw [hq] at hq'
  cases hq'
  exact hbytes.congr fun t h1 h2 => h.arrived k e he hreg t h1 (by omega)

/-- A fresh log no write was addressed to. -/
theorem new (rs : List Request) (hno : ∀ k e, writes k = some e → e.region ≠ region) :
    ReplicaMem rs writes region zeroed :=
  ⟨fun k e he hreg => absurd hreg (hno k e he), fun _ hx => absurd rfl hx⟩

theorem append (h : ReplicaMem rs writes region m)
    (hw : ∀ k e, writes k = some e → WriteBytes B rs l k e) (q : Request) :
    ReplicaMem (rs ++ [q]) writes region m := by
  have hlt : ∀ {k : Nat} {r : Request}, rs[k]? = some r → k < rs.length := fun hr =>
    (List.getElem?_eq_some_iff.mp hr).1
  refine ⟨fun k e he hreg t h1 h2 => ?_, fun x hx => ?_⟩
  · obtain ⟨r, hr, -⟩ := (hw k e he).bytes
    rw [startOf_append (hlt hr).le]
    exact h.arrived k e he hreg t h1 h2
  · obtain ⟨k, r, hr, hin⟩ := h.untouched x hx
    refine ⟨k, r, ?_, ?_⟩
    · rw [List.getElem?_append_left (hlt hr)]
      exact hr
    · rw [startOf_append (hlt hr).le]
      exact hin

/-- A write just posted is not visible yet. -/
theorem post (h : ReplicaMem rs writes region m) {id : Nat} {e : EntryWrite}
    (hnone : writes id = none) (hvis : e.visible = 0) :
    ReplicaMem rs (Function.update writes id (some e)) region m := by
  refine ⟨fun k e' he' hreg t h1 h2 => ?_, fun x hx => ?_⟩
  · rcases eq_or_ne k id with rfl | hne
    · rw [Function.update_self] at he'
      cases he'
      omega
    · rw [Function.update_of_ne hne] at he'
      exact h.arrived k e' he' hreg t h1 h2
  · obtain ⟨k, r, hr, hle, hin⟩ := h.untouched x hx
    refine ⟨k, r, hr, hle, hin.imp_right fun ⟨e', he', hrest⟩ => ⟨e', ?_, hrest⟩⟩
    rw [Function.update_of_ne (by rintro rfl; rw [hnone] at he'; cases he')]
    exact he'

/-- Whatever happens to the ack slots of an entry. -/
theorem acked (h : ReplicaMem rs writes region m)
    (hw : ∀ k e, writes k = some e → WriteBytes B rs l k e) {m' : Mem} {id : Nat} {q : Request}
    (hq : rs[id]? = some q)
    (hm : ∀ x, x < startOf rs id ∨ startOf rs id + offMsgVs ≤ x → m' x = m x) :
    ReplicaMem rs writes region m' := by
  refine ⟨fun k e he hreg t h1 h2 => ?_, fun x hx => ?_⟩
  · rw [hm _ ?_]
    · exact h.arrived k e he hreg t h1 h2
    · by_contra hin
      obtain ⟨r, hr, hlen, -, -⟩ := (hw k e he).bytes
      have hvis := (hw k e he).visible
      have hq216 : offMsgVs ≤ q.entryLen := by unfold Request.entryLen sizeofEntry offMsgVs; omega
      obtain rfl : k = id := startOf_unique hr hq (x := startOf rs k + t) (by omega) (by omega)
        (by omega) (by omega)
      omega
  · by_cases hin : x < startOf rs id ∨ startOf rs id + offMsgVs ≤ x
    · rw [hm x hin] at hx
      exact h.untouched x hx
    · exact ⟨id, q, hq, by omega, .inl (by omega)⟩

/-- The next `n` bytes of a write arrive. -/
theorem deliver (h : ReplicaMem rs writes region m)
    (hw : ∀ k e, writes k = some e → WriteBytes B rs l k e) {id n : Nat} {e : EntryWrite}
    (he : writes id = some e) (hreg : e.region = region) (hn : e.visible + n ≤ e.len) :
    ReplicaMem rs (Function.update writes id (some { e with visible := e.visible + n })) region
      (write m (e.off + e.visible) n fun j => e.byte (e.visible + j)) := by
  obtain ⟨q, hq, hlen, -, -⟩ := (hw id e he).bytes
  rw [(hw id e he).off]
  refine ⟨fun k e' he' hreg' t h1 h2 => ?_, fun x hx => ?_⟩
  · rcases eq_or_ne k id with rfl | hne
    · rw [Function.update_self] at he'
      cases he'
      -- the byte was there, or it arrives now
      by_cases hold : t < e.visible
      · rw [write_outside _ _ (by omega)]
        exact h.arrived k e he hreg t h1 hold
      · have h2' : t < e.visible + n := h2
        rw [write_inside _ _ (by omega) (by omega)]
        show e.byte _ = e.byte t
        congr 1
        omega
    · rw [Function.update_of_ne hne] at he'
      obtain ⟨r, hr, hlen', -, -⟩ := (hw k e' he').bytes
      have hvis' := (hw k e' he').visible
      rw [write_outside _ _ ?_]
      · exact h.arrived k e' he' hreg' t h1 h2
      · -- another entry, and entries do not overlap
        by_contra hin
        exact hne (startOf_unique hr hq (x := startOf rs k + t) (by omega) (by omega)
          (by omega) (by omega))
  · by_cases hin : x < startOf rs id + e.visible ∨ startOf rs id + e.visible + n ≤ x
    · rw [write_outside _ _ hin] at hx
      obtain ⟨k, r, hr, hle, hcov⟩ := h.untouched x hx
      refine ⟨k, r, hr, hle, hcov.imp_right fun ⟨e', he', hreg', hvis'⟩ => ?_⟩
      rcases eq_or_ne k id with rfl | hne
      · rw [he] at he'
        cases he'
        exact ⟨_, Function.update_self .., hreg, by show x < _ + (e.visible + n); omega⟩
      · exact ⟨e', by rw [Function.update_of_ne hne]; exact he', hreg', hvis'⟩
    · exact ⟨id, q, hq, by omega, .inr ⟨_, Function.update_self .., hreg,
        by show x < _ + (e.visible + n); omega⟩⟩

end ReplicaMem

/-! ## §5. What a follower knows of an entry. -/

/-- The writes of `writes` are all still there, with at least as many bytes
visible. -/
def Extends (writes writes' : Nat → Option EntryWrite) : Prop :=
  ∀ k e, writes k = some e → ∃ e', writes' k = some e' ∧ e'.region = e.region ∧ e'.len = e.len
    ∧ e'.byte = e.byte ∧ e.visible ≤ e'.visible

/-- Entry `k` was written to the log `region`, for request `q` and by the write `e`. -/
structure Addressed (rs : List Request) (writes : Nat → Option EntryWrite) (region k : Nat)
    (e : EntryWrite) (q : Request) : Prop where
  write : writes k = some e
  region : e.region = region
  request : rs[k]? = some q

/-- Some of the size is there (line 273). -/
def SizeBegun (rs : List Request) (writes : Nat → Option EntryWrite) (region k : Nat) : Prop :=
  ∃ e q, Addressed rs writes region k e q ∧ q.sizeSeen e.visible ≠ 0

/-- The length taken from it (line 275): that of the entry, if the request is one of `T`. -/
def Measured (T : Request → Prop) (rs : List Request) (writes : Nat → Option EntryWrite)
    (region k len : Nat) : Prop :=
  ∃ e q, Addressed rs writes region k e q ∧ sizeofEntry < len ∧ len ≤ q.entryLen
    ∧ (T q → len = q.entryLen)

/-- The byte found there (line 276): the fields have arrived, and all of the entry, if
the request is one of `T`. -/
def MarkerSeen (T : Request → Prop) (rs : List Request) (writes : Nat → Option EntryWrite)
    (region k : Nat) : Prop :=
  ∃ e q, Addressed rs writes region k e q ∧ sizeofEntry < e.visible ∧ (T q → e.len ≤ e.visible)

/-- The record `r` taken from the entry of request `q`: the record of the request, if it
is one of `T`, and that up to the payload in any case. -/
structure Reads (T : Request → Prop) (q : Request) (vs : ViewStamp) (r : Record) : Prop where
  head : r.SameHead (q.record vs)
  whole : T q → r = q.record vs

/-- What is read whole. -/
theorem Reads.of_eq {T : Request → Prop} {q : Request} {vs : ViewStamp} {r : Record}
    (h : r = q.record vs) : Reads T q vs r :=
  ⟨h ▸ .refl r, fun _ => h⟩

section Entry
variable {T : Request → Prop} {rs : List Request} {writes writes' : Nat → Option EntryWrite}
variable {region k len l B : Nat} {m : Mem} {e : EntryWrite} {q : Request}

/-- More bytes of the write arrive. -/
theorem Addressed.extend (h : Addressed rs writes region k e q) (hext : Extends writes writes') :
    ∃ e', Addressed rs writes' region k e' q ∧ e'.len = e.len ∧ e.visible ≤ e'.visible := by
  obtain ⟨e', he', hreg, hlen, -, hle⟩ := hext k e h.write
  exact ⟨e', ⟨he', hreg.trans h.region, h.request⟩, hlen, hle⟩

/-- One more request is submitted. -/
theorem Addressed.append (h : Addressed rs writes region k e q) (r : Request) :
    Addressed (rs ++ [r]) writes region k e q := by
  refine ⟨h.write, h.region, ?_⟩
  rw [List.getElem?_append_left (List.getElem?_eq_some_iff.mp h.request).1]
  exact h.request

/-- A size that has begun to arrive goes on to be there. -/
theorem SizeBegun.extend (h : SizeBegun rs writes region k) (hext : Extends writes writes') :
    SizeBegun rs writes' region k := by
  obtain ⟨e, q, hpost, hseen⟩ := h
  obtain ⟨e', hpost', -, hle⟩ := hpost.extend hext
  exact ⟨e', q, hpost', Request.sizeSeen_mono hle hseen⟩

/-- The length taken stays a part of the entry's. -/
theorem Measured.extend (h : Measured T rs writes region k len) (hext : Extends writes writes') :
    Measured T rs writes' region k len := by
  obtain ⟨e, q, hpost, hrest⟩ := h
  obtain ⟨e', hpost', -, -⟩ := hpost.extend hext
  exact ⟨e', q, hpost', hrest⟩

/-- What has arrived stays there. -/
theorem MarkerSeen.extend (h : MarkerSeen T rs writes region k) (hext : Extends writes writes') :
    MarkerSeen T rs writes' region k := by
  obtain ⟨e, q, hpost, hhead, hall⟩ := h
  obtain ⟨e', hpost', hlen, hle⟩ := hpost.extend hext
  exact ⟨e', q, hpost', by omega, fun hq => by have := hall hq; omega⟩

theorem SizeBegun.append (h : SizeBegun rs writes region k) (r : Request) :
    SizeBegun (rs ++ [r]) writes region k := by
  obtain ⟨e, q, hpost, hrest⟩ := h
  exact ⟨e, q, hpost.append r, hrest⟩

theorem Measured.append (h : Measured T rs writes region k len) (r : Request) :
    Measured T (rs ++ [r]) writes region k len := by
  obtain ⟨e, q, hpost, hrest⟩ := h
  exact ⟨e, q, hpost.append r, hrest⟩

theorem MarkerSeen.append (h : MarkerSeen T rs writes region k) (r : Request) :
    MarkerSeen T (rs ++ [r]) writes region k := by
  obtain ⟨e, q, hpost, hrest⟩ := h
  exact ⟨e, q, hpost.append r, hrest⟩

namespace ReplicaMem

/-- Line 273: a size that is not zero is that of an entry on its way. -/
theorem begun (h : ReplicaMem rs writes region m)
    (hw : ∀ k e, writes k = some e → WriteBytes B rs l k e) (hk : k ≤ rs.length)
    (hsize : readLE m (startOf rs k + offDataSize) 8 ≠ 0) : SizeBegun rs writes region k := by
  by_contra hno
  refine hsize (h.size_zero hw hk fun e he hreg => hno ?_)
  obtain ⟨q, hq, -⟩ := (hw k e he).bytes
  rw [h.size_eq hw he hreg hq] at hsize
  exact ⟨e, q, ⟨he, hreg, hq⟩, hsize⟩

/-- Line 275: the length is that of the entry or a smaller one, and the first if the size
cannot be, or was not, seen in part. -/
theorem measured (h : ReplicaMem rs writes region m)
    (hw : ∀ k e, writes k = some e → WriteBytes B rs l k e) (hbegun : SizeBegun rs writes region k)
    (hT : ∀ e q, Addressed rs writes region k e q → T q → q.Short ∨ offDataSize + 8 ≤ e.visible) :
    Measured T rs writes region k (logEntryLen m (startOf rs k)) := by
  obtain ⟨e, q, hpost, hseen⟩ := hbegun
  obtain ⟨q', hq', -, hin, -⟩ := (hw k e hpost.write).bytes
  rw [hpost.request] at hq'
  cases hq'
  have hle := q.sizeSeen_le e.visible
  have hlen : logEntryLen m (startOf rs k) = sizeofEntry + q.sizeSeen e.visible := by
    unfold logEntryLen
    rw [h.size_eq hw hpost.write hpost.region hpost.request]
    unfold Request.entryLen logSize sizeofEntry at *
    omega
  refine ⟨e, q, hpost, by omega, by unfold Request.entryLen; omega, fun hq => ?_⟩
  rw [hlen]
  unfold Request.entryLen
  rcases hT e q hpost hq with hshort | hvis
  · rw [Request.sizeSeen_short hshort hseen]
  · rw [Request.sizeSeen_whole (by omega) hvis]

/-- Line 276: the byte found has arrived, and with it all in front of it. -/
theorem seen (h : ReplicaMem rs writes region m)
    (hw : ∀ k e, writes k = some e → WriteBytes B rs l k e)
    (hlen : Measured T rs writes region k len)
    (hmark : m (startOf rs k + len - 1) = dummyEnd) : MarkerSeen T rs writes region k := by
  obtain ⟨e, q, hpost, hpos, hle, hall⟩ := hlen
  obtain ⟨q', hq', helen, -, -⟩ := (hw k e hpost.write).bytes
  rw [hpost.request] at hq'
  cases hq'
  have hvis : len - 1 < e.visible := by
    by_contra hlt
    rw [show startOf rs k + len - 1 = startOf rs k + (len - 1) by omega,
      h.zero_hidden hw hpost.request (by unfold sizeofEntry at hpos; unfold offMsgVs; omega)
        (by omega) fun e' he' _ => ?_] at hmark
    · exact absurd hmark (by decide)
    · rw [hpost.write] at he'
      cases he'
      omega
  exact ⟨e, q, hpost, by omega, fun hq => by have := hall hq; omega⟩

/-- What an entry whose marker was found reads as. -/
theorem headBytes (h : ReplicaMem rs writes region m)
    (hw : ∀ k e, writes k = some e → WriteBytes B rs l k e) (hseen : MarkerSeen T rs writes region k) :
    ∃ q, rs[k]? = some q ∧ startOf rs k + q.entryLen ≤ logSize
      ∧ HeadBytes B l k q (entryAt m (startOf rs k))
      ∧ Reads T q (stampOf k) (Record.decode (recordAt m (startOf rs k))) := by
  obtain ⟨e, q, hpost, hvis, hall⟩ := hseen
  obtain ⟨q', hq', -, hin, hbytes⟩ := (hw k e hpost.write).bytes
  rw [hpost.request] at hq'
  cases hq'
  have hhead : HeadBytes B l k q (entryAt m (startOf rs k)) := by
    refine hbytes.head fun t h1 h2 => h.arrived k e hpost.write hpost.region t h1 ?_
    unfold sizeofEntry at hvis
    unfold offData at h2
    omega
  refine ⟨q, hpost.request, hin, hhead, hhead.decode_recordAt, fun hq => ?_⟩
  exact (h.entryBytes hw hpost.write hpost.region (hall hq) hpost.request).decode_recordAt (by decide)

end ReplicaMem

end Entry

end RdmaPaxos
