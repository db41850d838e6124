/-
  RdmaPaxos.Log.DareLog
  ─────────────────────
  **THE REMOTELY WRITABLE LOG** (`include/rdma/dare_log.h`).

  `dare_log_t` is a header with 64-bit offsets followed by `LOG_SIZE` bytes of
  entries.  An entry is a C struct of 216 bytes followed by the payload:

      offset   0 ‥ 167   ack[7]          (24 bytes each)
             168 ‥ 175   msg_vs
             176 ‥ 183   req_canbe_exed
             184 ‥ 187   node_id         (4 bytes of padding)
             192 ‥ 199   data_size       (payload length + 1)
             200         type            (3 bytes of padding)
             204 ‥ 211   clt_id
             212 ‥       data

  A pointer into the entries is its offset.  All arithmetic is that of the C
  types: `uint64_t` offsets, `uint32_t` entry lengths and remote offsets.
-/
import RdmaPaxos.Lib.ByteMemory
import RdmaPaxos.ViewStamp

namespace RdmaPaxos

open RdmaPaxos.ByteMemory

/-! ## §1. Constants and struct layout. -/

/-- `MAX_SERVER_COUNT`. -/
def maxServerCount : Nat := 7

/-- `LOG_SIZE`, i.e. `16384*4*PAGE_SIZE`. -/
def logSize : Nat := 16384 * 4 * 4096

/-- `ACCEPT_ACK_SIZE`. -/
def acceptAckSize : Nat := 24

/-- `sizeof(dare_log_entry_t)`. -/
def sizeofEntry : Nat := 216

/-- `sizeof(request_record)`. -/
def sizeofRecord : Nat := 24

/-- `offsetof(dare_log_t, entries)`: six offsets and the 288 bytes of `ctrl_data`. -/
def offsetofEntries : Nat := 336

/-- `DUMMY_END`. -/
def dummyEnd : UInt8 := 102

/-- Offset of `msg_vs` in an entry. -/
def offMsgVs : Nat := 168
/-- Offset of `req_canbe_exed`. -/
def offCanbeExed : Nat := 176
/-- Offset of `node_id`. -/
def offNodeId : Nat := 184
/-- Offset of `data_size`, and of the record. -/
def offDataSize : Nat := 192
/-- Offset of `type`. -/
def offType : Nat := 200
/-- Offset of `clt_id`. -/
def offCltId : Nat := 204
/-- Offset of `data`. -/
def offData : Nat := 212

/-! ## §2. The log and its static functions. -/

/-- `dare_log_t` with the fields the consensus code uses.  `head`, `read` and
`write` are never read by it. -/
structure DareLog where
  /-- `log->end`: offset after the last entry, `len` when empty. -/
  endOff : Nat
  /-- `log->tail`: offset of the last entry. -/
  tailOff : Nat
  /-- `log->len`. -/
  len : Nat
  entries : Mem

/-- `log_new`. -/
def logNew : DareLog := ⟨logSize, logSize, logSize, zeroed⟩

/-- `uint64_t` subtraction. -/
def sub64 (a b : Nat) : Nat := (a + 2 ^ 64 - b) % 2 ^ 64

/-- `is_log_empty`. -/
def isLogEmpty (log : DareLog) : Bool := log.endOff == log.len

/-- `log_fit_entry_header`. -/
def logFitEntryHeader (log : DareLog) (offset : Nat) : Bool :=
  decide (sizeofEntry ≤ sub64 log.len offset)

/-- `log_add_new_entry`: the pointer is taken before the caller's wrap test. -/
def logAddNewEntry (log : DareLog) : Nat :=
  if isLogEmpty log then 0 else log.endOff

/-- `log_entry_len`, truncated to `uint32_t`. -/
def logEntryLen (entries : Mem) (entry : Nat) : Nat :=
  (sizeofEntry + readLE entries (entry + offDataSize) 8) % 2 ^ 32

/-- `log_get_entry`: the offset it returns and stores back. -/
def logGetEntry (log : DareLog) (offset : Nat) : Nat :=
  if logFitEntryHeader log offset then offset else 0

/-- The test of `handle_accept_req` (lines 273–276): a non-zero size, and
`DUMMY_END` as the last byte of the entry that size describes. -/
def entryDetected (entries : Mem) (entry : Nat) : Bool :=
  readLE entries (entry + offDataSize) 8 != 0
    && entries (entry + logEntryLen entries entry - 1) == dummyEnd

/-! ## §3. The allocation step of `leader_handle_submit_req`. -/

/-- Lines 142–150 of `consensus.c`: take the pointer, wrap `end` if the header
does not fit, store `data_size`, advance `end`. -/
def allocEntry (log : DareLog) (dataSize : Nat) : Nat × DareLog :=
  let entry := logAddNewEntry log
  let tail := if logFitEntryHeader log log.endOff then log.endOff else 0
  let entries := writeLE log.entries (entry + offDataSize) 8 (dataSize + 1)
  (entry, { log with
    tailOff := tail
    endOff := (tail + logEntryLen entries entry) % 2 ^ 64
    entries := entries })

/-- The `uint32_t` remote offset the leader publishes an entry at. -/
def publishOffset (tail : Nat) : Nat := (offsetofEntries + tail) % 2 ^ 32

/-- The `uint32_t` remote offset follower `id` writes its ack at. -/
def ackOffset (tail id : Nat) : Nat :=
  (offsetofEntries + tail + acceptAckSize * id) % 2 ^ 32

/-! ## §4. How the functions compute. -/

/-- A subtraction of `uint64_t` that does not wrap. -/
theorem sub64_of_le {a b : Nat} (ha : a < 2 ^ 64) (h : b ≤ a) : sub64 a b = a - b := by
  unfold sub64
  omega

/-- Inside the log the header test is the comparison one expects. -/
theorem fit_iff_of_le {log : DareLog} {offset : Nat} (hlen : log.len < 2 ^ 64)
    (h : offset ≤ log.len) :
    logFitEntryHeader log offset = true ↔ offset + sizeofEntry ≤ log.len := by
  rw [logFitEntryHeader, decide_eq_true_eq, sub64_of_le hlen h]
  omega

/-- At the end of the log no header fits. -/
theorem not_fit_end {log : DareLog} (hlen : log.len = logSize) :
    logFitEntryHeader log log.len = false := by
  rw [logFitEntryHeader, hlen]
  decide

/-- At its start one does. -/
theorem fit_start {log : DareLog} (hlen : log.len = logSize) : logFitEntryHeader log 0 = true := by
  rw [logFitEntryHeader, hlen]
  decide

/-- `data_size + 1` is what the new entry's length is computed from. -/
theorem logEntryLen_writeLE (m : Mem) (entry v : Nat) :
    logEntryLen (writeLE m (entry + offDataSize) 8 v) entry
      = (sizeofEntry + v) % 2 ^ 32 := by
  have hpow : (256 : Nat) ^ 8 = 2 ^ 32 * 2 ^ 32 := by norm_num
  rw [logEntryLen, readLE_writeLE, hpow, Nat.add_mod, Nat.mod_mul_right_mod, ← Nat.add_mod]

@[simp] theorem allocEntry_len (log : DareLog) (d : Nat) :
    (allocEntry log d).2.len = log.len := by
  cases log; rfl

/-- The entry is where `log_add_new_entry` says. -/
theorem allocEntry_entry (log : DareLog) (d : Nat) :
    (allocEntry log d).1 = logAddNewEntry log := rfl

theorem allocEntry_tailOff (log : DareLog) (d : Nat) :
    (allocEntry log d).2.tailOff = logGetEntry log log.endOff := rfl

/-- Of the entry, only its size is written. -/
theorem allocEntry_entries (log : DareLog) (d : Nat) :
    (allocEntry log d).2.entries
      = writeLE log.entries (logAddNewEntry log + offDataSize) 8 (d + 1) := rfl

/-- The end moves by the length of the entry. -/
theorem allocEntry_endOff (log : DareLog) (d : Nat) :
    (allocEntry log d).2.endOff
      = (logGetEntry log log.endOff + (sizeofEntry + (d + 1)) % 2 ^ 32) % 2 ^ 64 := by
  show (logGetEntry log log.endOff + logEntryLen (writeLE _ _ 8 (d + 1)) _) % 2 ^ 64 = _
  rw [logEntryLen_writeLE]

end RdmaPaxos
