/-
  RdmaPaxos.Output.Store
  ──────────────────────
  **WHAT A NODE REMEMBERS OF ITS APPLICATION'S OUTPUT** (`output/output.c`).

  For each descriptor the output manager cuts the bytes written there into
  blocks of `HASH_BUFFER_SIZE` and keeps one hash per full block, each fed into
  the next.  Whatever calls the bytes came in,

      hash i  =  crc64 of the first 1024 · (i + 1) bytes since the descriptor
                 was last closed,

  and a hash that is not there yet is reported as 0 (`getOutputHash_runOps`).
-/
import RdmaPaxos.Output.Crc64
import Mathlib.Logic.Function.Basic

namespace RdmaPaxos.Output

/-! ## §1. Handlers and the manager. -/

/-- `CHECK_PERIOD`. -/
def checkPeriod : Nat := 10
/-- `CHECK_GOBACK`. -/
def checkGoback : Nat := 5
/-- `HASH_BUFFER_SIZE`. -/
def hashBufferSize : Nat := 1024
/-- `MAX_FD_SIZE`. -/
def maxFdSize : Nat := 65536

/-- `output_handler_t`.  `hashBuffer` is the part of `hash_buffer` in front of
`hash_buffer_curr`, which never reaches the end of the buffer between calls. -/
structure Handler where
  count : Nat
  outputList : List UInt64
  hash : UInt64
  hashBuffer : List UInt8
  calledCnt : Nat
  room : hashBuffer.length < hashBufferSize

/-- `new_output_handler`. -/
def newOutputHandler : Handler where
  count := 0
  outputList := []
  hash := 0
  hashBuffer := []
  calledCnt := 0
  room := by decide

/-- `output_manager_t`: the table `fd_handler`. -/
abbrev OutputMgr := Nat → Option Handler

/-- The manager `get_output_mgr` creates. -/
def newOutputMgr : OutputMgr := fun _ => none

/-- `get_output_handler_by_fd`: a handler is made on first use. -/
def getOutputHandlerByFd (mgr : OutputMgr) (fd : Nat) : OutputMgr × Option Handler :=
  if fd < maxFdSize then
    match mgr fd with
    | some h => (mgr, some h)
    | none => (Function.update mgr fd (some newOutputHandler), some newOutputHandler)
  else (mgr, none)

/-- `del_output`. -/
def delOutput (mgr : OutputMgr) (fd : Nat) : OutputMgr × Int :=
  if fd < maxFdSize then (Function.update mgr fd none, 0) else (mgr, -1)

/-! ## §2. Storing. -/

/-- The buffer is full: one more hash. -/
def Handler.addHash (h : Handler) (block : List UInt8) : Handler where
  count := h.count + 1
  outputList := h.outputList ++ [crc64 h.hash block]
  hash := crc64 h.hash block
  hashBuffer := []
  calledCnt := h.calledCnt
  room := by decide

/-- The loop of `store_output` over what is left of `buff`: the handler after
it and the number of hashes generated. -/
def Handler.push (h : Handler) (buff : List UInt8) : Handler × Nat :=
  if hb : buff = [] then (h, 0)
  else
    let actual := min (hashBufferSize - h.hashBuffer.length) buff.length
    have : buff.length - actual < buff.length := by
      have := h.room
      have := List.length_pos_iff.2 hb
      omega
    if hfull : h.hashBuffer.length + actual = hashBufferSize then
      let rest := (h.addHash (h.hashBuffer ++ buff.take actual)).push (buff.drop actual)
      (rest.1, rest.2 + 1)
    else
      { h with
        hashBuffer := h.hashBuffer ++ buff.take actual
        room := by
          have := h.room
          rw [List.length_append, List.length_take]
          omega }.push (buff.drop actual)
termination_by buff.length
decreasing_by all_goals rw [List.length_drop]; exact this

/-- `store_output`. -/
def storeOutput (mgr : OutputMgr) (fd : Nat) (buff : List UInt8) : OutputMgr × Int :=
  if buff = [] then (mgr, 0)
  else
    match getOutputHandlerByFd mgr fd with
    | (mgr, none) => (mgr, -1)
    | (mgr, some h) => (Function.update mgr fd (some (h.push buff).1), (h.push buff).2)

/-! ## §3. Proposing and looking up. -/

/-- `determine_output`: every `CHECK_PERIOD`-th call proposes an index. -/
def determineOutput (mgr : OutputMgr) (fd : Nat) : OutputMgr × Int :=
  match getOutputHandlerByFd mgr fd with
  | (mgr, none) => (mgr, -1)
  | (mgr, some h) =>
      let calledCnt := h.calledCnt + 1
      let roundGoback : Int := h.count - checkGoback
      (Function.update mgr fd (some { h with calledCnt := calledCnt }),
        if calledCnt % checkPeriod = 0 then
          if 0 ≤ roundGoback then roundGoback else -1
        else -1)

/-- The loop of `get_val_by_index`, `cnt` nodes into the list. -/
def getValFrom (index : Int) : List UInt64 → Nat → UInt64
  | [], _ => 0
  | val :: rest, cnt => if index = cnt then val else getValFrom index rest (cnt + 1)

/-- `get_val_by_index`. -/
def getValByIndex (list : List UInt64) (index : Int) : UInt64 := getValFrom index list 0

/-- `get_output_hash`. -/
def getOutputHash (mgr : OutputMgr) (fd : Nat) (hashIndex : Int) : OutputMgr × UInt64 :=
  match getOutputHandlerByFd mgr fd with
  | (mgr, none) => (mgr, 0)
  | (mgr, some h) =>
      (mgr, if hashIndex < h.count then getValByIndex h.outputList hashIndex else 0)

/-! ## §4. A handler remembers the stream. -/

/-- How many bytes of a stream are in full blocks. -/
def hashed (B : List UInt8) : Nat := hashBufferSize * (B.length / hashBufferSize)

/-- The hashes of a stream. -/
def hashesOf (B : List UInt8) : List UInt64 :=
  (List.range (B.length / hashBufferSize)).map fun i => crc64 0 (B.take (hashBufferSize * (i + 1)))

/-- The handler is what the stream `B` leaves behind. -/
structure Handler.Holds (h : Handler) (B : List UInt8) : Prop where
  count : h.count = B.length / hashBufferSize
  list : h.outputList = hashesOf B
  hash : h.hash = crc64 0 (B.take (hashed B))
  buffer : h.hashBuffer = B.drop (hashed B)

/-- A new handler holds nothing. -/
theorem newOutputHandler_holds : newOutputHandler.Holds [] where
  count := rfl
  list := rfl
  hash := rfl
  buffer := rfl

/-- The bytes in full blocks are some of all. -/
theorem hashed_le (B : List UInt8) : hashed B ≤ B.length := Nat.mul_div_le _ _

/-- A full block lies inside the stream. -/
theorem block_le {B : List UInt8} {i : Nat} (hi : i < B.length / hashBufferSize) :
    hashBufferSize * (i + 1) ≤ B.length :=
  Nat.le_trans (Nat.mul_le_mul_left _ hi) (hashed_le B)

/-- Hashes already there stay as more is written. -/
theorem hashesOf_append {B xs : List UInt8}
    (h : (B ++ xs).length / hashBufferSize = B.length / hashBufferSize) :
    hashesOf (B ++ xs) = hashesOf B := by
  unfold hashesOf
  rw [h]
  apply List.map_congr_left
  intro i hi
  rw [List.take_append_of_le_length (block_le (List.mem_range.1 hi))]

/-- A block that is completed gives one more hash. -/
theorem hashesOf_append_block {B xs : List UInt8}
    (h : (B ++ xs).length = hashBufferSize * (B.length / hashBufferSize + 1)) :
    hashesOf (B ++ xs) = hashesOf B ++ [crc64 0 (B ++ xs)] := by
  have hq : (B ++ xs).length / hashBufferSize = B.length / hashBufferSize + 1 := by
    rw [h, Nat.mul_div_cancel_left _ (by decide)]
  unfold hashesOf
  rw [hq, List.range_succ, List.map_append]
  congr 1
  · apply List.map_congr_left
    intro i hi
    rw [List.take_append_of_le_length (block_le (List.mem_range.1 hi))]
  · simp only [List.map_cons, List.map_nil]
    rw [← h, List.take_length]

/-- What is not in full blocks is in the buffer. -/
theorem Handler.Holds.length {h : Handler} {B : List UInt8} (hh : h.Holds B) :
    B.length = hashed B + h.hashBuffer.length := by
  have hle := hashed_le B
  rw [hh.buffer, List.length_drop]
  omega

/-- Bytes that do not fill the buffer only lengthen it. -/
theorem Handler.Holds.fill {h : Handler} {B xs : List UInt8} (hh : h.Holds B)
    (hroom : (h.hashBuffer ++ xs).length < hashBufferSize) :
    ({ h with hashBuffer := h.hashBuffer ++ xs, room := hroom } : Handler).Holds (B ++ xs) := by
  have hlen := hh.length
  have hq : (B ++ xs).length / hashBufferSize = B.length / hashBufferSize := by
    rw [List.length_append] at hroom ⊢
    unfold hashed at hlen
    rw [hlen, Nat.add_assoc, Nat.mul_add_div (by decide), Nat.mul_add_div (by decide),
      Nat.div_eq_of_lt hroom, Nat.div_eq_of_lt h.room]
  have hhashed : hashed (B ++ xs) = hashed B := by unfold hashed; rw [hq]
  have hle := hashed_le B
  exact
    { count := by rw [hq]; exact hh.count
      list := by rw [hashesOf_append hq]; exact hh.list
      hash := by rw [hhashed, List.take_append_of_le_length hle]; exact hh.hash
      buffer := by
        rw [hhashed, List.drop_append_of_le_length hle]
        exact congrArg (· ++ xs) hh.buffer }

/-- Bytes that fill the buffer add the hash of everything so far. -/
theorem Handler.Holds.block {h : Handler} {B xs : List UInt8} (hh : h.Holds B)
    (hfull : (h.hashBuffer ++ xs).length = hashBufferSize) :
    (h.addHash (h.hashBuffer ++ xs)).Holds (B ++ xs) := by
  have hlen := hh.length
  have htotal : (B ++ xs).length = hashBufferSize * (B.length / hashBufferSize + 1) := by
    rw [List.length_append] at hfull ⊢
    unfold hashed at hlen
    rw [Nat.mul_add_one]
    omega
  have hhashed : hashed (B ++ xs) = (B ++ xs).length := by
    unfold hashed
    rw [htotal, Nat.mul_div_cancel_left _ (by decide)]
  -- the carried hash and the buffer together are the whole stream
  have hcrc : crc64 h.hash (h.hashBuffer ++ xs) = crc64 0 (B ++ xs) := by
    rw [hh.hash, hh.buffer, ← crc64_append, ← List.append_assoc, List.take_append_drop]
  exact
    { count := by
        show h.count + 1 = _
        rw [hh.count, htotal, Nat.mul_div_cancel_left _ (by decide)]
      list := by
        show h.outputList ++ [_] = _
        rw [hashesOf_append_block htotal, hcrc, hh.list]
      hash := by
        show crc64 h.hash _ = _
        rw [hcrc, hhashed, List.take_length]
      buffer := by
        rw [hhashed, List.drop_length]
        rfl }

/-- **`store_output` appends to the stream**, wherever the block boundaries
fall, and returns how many hashes it added. -/
theorem Handler.Holds.push {h : Handler} {B : List UInt8} (hh : h.Holds B) (buff : List UInt8) :
    (h.push buff).1.Holds (B ++ buff) ∧ (h.push buff).1.count = h.count + (h.push buff).2 := by
  by_cases hb : buff = []
  · rw [Handler.push, dif_pos hb, hb, List.append_nil]
    exact ⟨hh, rfl⟩
  · have hpos := List.length_pos_iff.2 hb
    have hroom := h.room
    rw [Handler.push, dif_neg hb]
    -- the first pass takes some bytes; the rest is shorter
    obtain ⟨actual, hactual⟩ : ∃ k, k = min (hashBufferSize - h.hashBuffer.length) buff.length :=
      ⟨_, rfl⟩
    simp only [← hactual]
    have hlen : (h.hashBuffer ++ buff.take actual).length = h.hashBuffer.length + actual := by
      rw [List.length_append, List.length_take, Nat.min_eq_left (by omega)]
    by_cases hfull : h.hashBuffer.length + actual = hashBufferSize
    · have ih := (hh.block (hlen.trans hfull)).push (buff.drop actual)
      rw [List.append_assoc, List.take_append_drop] at ih
      rw [dif_pos hfull]
      refine ⟨ih.1, ih.2.trans ?_⟩
      show h.count + 1 + _ = h.count + (_ + 1)
      omega
    · have hshort : (h.hashBuffer ++ buff.take actual).length < hashBufferSize := by omega
      have ih := (hh.fill hshort).push (buff.drop actual)
      rw [List.append_assoc, List.take_append_drop] at ih
      rw [dif_neg hfull]
      exact ih
termination_by buff.length
decreasing_by all_goals (rw [List.length_drop]; omega)

/-! ## §5. Whole histories of a manager. -/

/-- One call of the output manager. -/
inductive Op where
  | store (fd : Nat) (buff : List UInt8)
  | determine (fd : Nat)
  | getHash (fd : Nat) (hashIndex : Int)
  | del (fd : Nat)
  deriving Repr, DecidableEq

/-- What an operation leaves behind. -/
def Op.run (mgr : OutputMgr) : Op → OutputMgr
  | .store fd buff => (storeOutput mgr fd buff).1
  | .determine fd => (determineOutput mgr fd).1
  | .getHash fd hashIndex => (getOutputHash mgr fd hashIndex).1
  | .del fd => (delOutput mgr fd).1

/-- The manager after a history of calls. -/
def runOps (ops : List Op) : OutputMgr := ops.foldl Op.run newOutputMgr

/-- What one call does to the stream of `fd`. -/
def Op.write (fd : Nat) (B : List UInt8) : Op → List UInt8
  | .store fd' buff => if fd' = fd then B ++ buff else B
  | .del fd' => if fd' = fd then [] else B
  | _ => B

/-- The bytes stored on `fd` since it was last closed. -/
def written (ops : List Op) (fd : Nat) : List UInt8 := ops.foldl (Op.write fd) []

/-- The manager's table agrees with the stream of `fd`. -/
def OutputMgr.Holds (mgr : OutputMgr) (fd : Nat) (B : List UInt8) : Prop :=
  match mgr fd with
  | none => B = []
  | some h => h.Holds B

/-- A descriptor without a handler. -/
theorem OutputMgr.Holds.of_none {mgr : OutputMgr} {fd : Nat} (h : mgr fd = none) :
    OutputMgr.Holds mgr fd [] := by
  unfold OutputMgr.Holds
  rw [h]

/-- A descriptor with one. -/
theorem OutputMgr.Holds.of_some {mgr : OutputMgr} {fd : Nat} {B : List UInt8} {h : Handler}
    (h₁ : mgr fd = some h) (h₂ : h.Holds B) : OutputMgr.Holds mgr fd B := by
  unfold OutputMgr.Holds
  rw [h₁]
  exact h₂

/-- Only the descriptor's own handler matters. -/
theorem OutputMgr.Holds.congr {mgr mgr' : OutputMgr} {fd : Nat} {B : List UInt8}
    (h : mgr' fd = mgr fd) (hh : OutputMgr.Holds mgr fd B) : OutputMgr.Holds mgr' fd B := by
  unfold OutputMgr.Holds
  rw [h]
  exact hh

/-- The handler a call works on holds the stream of its descriptor, and no other
entry of the table has changed. -/
theorem getOutputHandlerByFd_spec (mgr : OutputMgr) {fd : Nat} (hfd : fd < maxFdSize) :
    ∃ mgr' h, getOutputHandlerByFd mgr fd = (mgr', some h) ∧ mgr' fd = some h
      ∧ (∀ fd', fd' ≠ fd → mgr' fd' = mgr fd')
      ∧ ∀ B, OutputMgr.Holds mgr fd B → h.Holds B := by
  unfold getOutputHandlerByFd OutputMgr.Holds
  rw [if_pos hfd]
  cases hm : mgr fd with
  | none =>
      refine ⟨_, _, rfl, Function.update_self .., fun fd' hne => Function.update_of_ne hne .., ?_⟩
      intro B hB
      rw [show B = [] from hB]
      exact newOutputHandler_holds
  | some h => exact ⟨_, _, rfl, hm, fun _ _ => rfl, fun B hB => hB⟩

/-- Past the table nothing happens. -/
theorem getOutputHandlerByFd_out {mgr : OutputMgr} {fd : Nat} (hfd : ¬ fd < maxFdSize) :
    getOutputHandlerByFd mgr fd = (mgr, none) := by
  unfold getOutputHandlerByFd
  rw [if_neg hfd]

/-- One call keeps table and stream together. -/
theorem OutputMgr.Holds.run {mgr : OutputMgr} {fd : Nat} {B : List UInt8} (hfd : fd < maxFdSize)
    (hh : OutputMgr.Holds mgr fd B) (op : Op) :
    OutputMgr.Holds (op.run mgr) fd (op.write fd B) := by
  cases op with
  | store fd' buff =>
      simp only [Op.run, Op.write, storeOutput]
      -- an empty buffer does not even make a handler
      by_cases hb : buff = []
      · rw [if_pos hb, hb, List.append_nil, ite_self]
        exact hh
      · rw [if_neg hb]
        by_cases hfd' : fd' < maxFdSize
        · obtain ⟨mgr', h, hget, hself, hne, hhold⟩ := getOutputHandlerByFd_spec mgr hfd'
          rw [hget]
          by_cases he : fd' = fd
          · subst he
            rw [if_pos rfl]
            exact .of_some (Function.update_self ..) ((hhold B hh).push buff).1
          · rw [if_neg he]
            exact .congr ((Function.update_of_ne (Ne.symm he) ..).trans (hne fd (Ne.symm he))) hh
        · rw [getOutputHandlerByFd_out hfd', if_neg (by omega)]
          exact hh
  | determine fd' =>
      simp only [Op.run, Op.write, determineOutput]
      by_cases hfd' : fd' < maxFdSize
      · obtain ⟨mgr', h, hget, hself, hne, hhold⟩ := getOutputHandlerByFd_spec mgr hfd'
        rw [hget]
        by_cases he : fd' = fd
        · subst he
          have hB := hhold B hh
          exact .of_some (Function.update_self ..) ⟨hB.count, hB.list, hB.hash, hB.buffer⟩
        · exact .congr ((Function.update_of_ne (Ne.symm he) ..).trans (hne fd (Ne.symm he))) hh
      · rw [getOutputHandlerByFd_out hfd']
        exact hh
  | getHash fd' hashIndex =>
      simp only [Op.run, Op.write, getOutputHash]
      by_cases hfd' : fd' < maxFdSize
      · obtain ⟨mgr', h, hget, hself, hne, hhold⟩ := getOutputHandlerByFd_spec mgr hfd'
        rw [hget]
        by_cases he : fd' = fd
        · subst he
          exact .of_some hself (hhold B hh)
        · exact .congr (hne fd (Ne.symm he)) hh
      · rw [getOutputHandlerByFd_out hfd']
        exact hh
  | del fd' =>
      simp only [Op.run, Op.write, delOutput]
      by_cases he : fd' = fd
      · subst he
        rw [if_pos hfd, if_pos rfl]
        exact .of_none (Function.update_self ..)
      · rw [if_neg he]
        split
        · exact .congr (Function.update_of_ne (Ne.symm he) ..) hh
        · exact hh

/-- Every history keeps table and stream together. -/
theorem runOps_holds (ops : List Op) {fd : Nat} (hfd : fd < maxFdSize) :
    OutputMgr.Holds (runOps ops) fd (written ops fd) := by
  suffices h : ∀ (ops : List Op) mgr B, OutputMgr.Holds mgr fd B →
      OutputMgr.Holds (ops.foldl Op.run mgr) fd (ops.foldl (Op.write fd) B) from
    h ops _ _ (.of_none rfl)
  intro ops
  induction ops with
  | nil => exact fun _ _ h => h
  | cons op ops ih => exact fun mgr B h => ih _ _ (h.run hfd op)

/-! ## §6. Looking a hash up. -/

/-- The loop of `get_val_by_index`. -/
theorem getValFrom_eq (index : Int) (list : List UInt64) (cnt : Nat) :
    getValFrom index list cnt = if (cnt : Int) ≤ index then list.getD (index - cnt).toNat 0 else 0 := by
  induction list generalizing cnt with
  | nil => simp [getValFrom]
  | cons val rest ih =>
      rw [getValFrom, ih]
      by_cases he : index = cnt
      · subst he
        simp
      · rw [if_neg he]
        by_cases hle : (cnt : Int) ≤ index
        · have hlt : ((cnt + 1 : Nat) : Int) ≤ index := by omega
          have hsub : (index - cnt).toNat = (index - (cnt + 1 : Nat)).toNat + 1 := by omega
          rw [if_pos hle, if_pos hlt, hsub, List.getD_cons_succ]
        · rw [if_neg hle, if_neg (by omega)]

/-- The hash at an index, or 0. -/
theorem getValByIndex_eq (list : List UInt64) (index : Int) :
    getValByIndex list index = if 0 ≤ index then list.getD index.toNat 0 else 0 := by
  rw [getValByIndex, getValFrom_eq]
  simp

/-- The hash at an index of a stream, 0 where the block is not complete. -/
def hashAt (B : List UInt8) (index : Int) : UInt64 :=
  if 0 ≤ index ∧ index < (B.length / hashBufferSize : Nat) then
    crc64 0 (B.take (hashBufferSize * (index.toNat + 1)))
  else 0

/-- **`get_output_hash` depends on the stream alone.** -/
theorem getOutputHash_runOps (ops : List Op) (fd : Nat) (index : Int) :
    (getOutputHash (runOps ops) fd index).2
      = if fd < maxFdSize then hashAt (written ops fd) index else 0 := by
  unfold getOutputHash
  by_cases hfd : fd < maxFdSize
  · obtain ⟨mgr', h, hget, -, -, hhold⟩ := getOutputHandlerByFd_spec (runOps ops) hfd
    have hh := hhold _ (runOps_holds ops hfd)
    rw [hget, if_pos hfd]
    simp only [getValByIndex_eq, hh.count, hh.list, hashAt]
    by_cases hlt : index < ((written ops fd).length / hashBufferSize : Nat)
    · rw [if_pos hlt]
      by_cases hnn : 0 ≤ index
      · rw [if_pos hnn, if_pos ⟨hnn, hlt⟩, hashesOf,
          List.getD_eq_getElem?_getD, List.getElem?_map, List.getElem?_range (by omega)]
        rfl
      · rw [if_neg hnn, if_neg (fun h => hnn h.1)]
    · rw [if_neg hlt, if_neg (fun h => hlt h.2)]
  · rw [getOutputHandlerByFd_out hfd, if_neg hfd]

/-- Two nodes that have written parts of the same stream agree on every hash
both have. -/
theorem hashAt_of_isPrefix {B S : List UInt8} (h : B <+: S) (index : Int) :
    hashAt B index = 0 ∨ hashAt B index = hashAt S index := by
  unfold hashAt
  split
  case isFalse => exact .inl rfl
  case isTrue hi =>
    right
    have hle : B.length / hashBufferSize ≤ S.length / hashBufferSize := Nat.div_le_div_right h.length_le
    have hin : hashBufferSize * (index.toNat + 1) ≤ B.length := block_le (by omega)
    obtain ⟨t, rfl⟩ := h
    rw [if_pos ⟨hi.1, by omega⟩, List.take_append_of_le_length hin]

/-! ## §7. The list is the chain of the blocks. -/

/-- Block `i` of a stream. -/
def block (B : List UInt8) (i : Nat) : List UInt8 := (B.drop (hashBufferSize * i)).take hashBufferSize

/-- The first blocks, and one more. -/
theorem take_succ_block (B : List UInt8) (i : Nat) :
    B.take (hashBufferSize * (i + 1)) = B.take (hashBufferSize * i) ++ block B i := by
  rw [Nat.mul_succ, List.take_add]
  rfl

/-- One hash a full block. -/
theorem length_hashesOf (B : List UInt8) : (hashesOf B).length = B.length / hashBufferSize := by
  simp [hashesOf]

/-- Hash `i` is that of the first `i + 1` blocks. -/
theorem hashesOf_getElem? {B : List UInt8} {i : Nat} (hi : i < B.length / hashBufferSize) :
    (hashesOf B)[i]? = some (crc64 0 (B.take (hashBufferSize * (i + 1)))) := by
  rw [hashesOf, List.getElem?_map, List.getElem?_range hi]
  rfl

/-- **Each hash is the crc of its block, fed with the hash before it** (with 0
at the start). -/
theorem hashesOf_chain {B : List UInt8} {i : Nat} (hi : i < B.length / hashBufferSize) :
    (hashesOf B)[i]? = some (crc64 ((0 :: hashesOf B).getD i 0) (block B i)) := by
  rw [hashesOf_getElem? hi, take_succ_block, crc64_append]
  congr 2
  cases i with
  | zero => rfl
  | succ i =>
      rw [List.getD_cons_succ, List.getD_eq_getElem?_getD, hashesOf_getElem? (Nat.lt_of_succ_lt hi)]
      rfl

/-! ## §8. What `store_output` returns. -/

/-- One call, and the hashes that the `store_output` calls on `fd` have reported
since `fd` was last closed. -/
def Op.report (fd : Nat) (s : OutputMgr × Int) (op : Op) : OutputMgr × Int :=
  (op.run s.1,
    match op with
    | .store fd' buff => if fd' = fd then s.2 + max 0 (storeOutput s.1 fd' buff).2 else s.2
    | .del fd' => if fd' = fd then 0 else s.2
    | _ => s.2)

/-- The sum of the positive return values of `store_output` on `fd`. -/
def reported (ops : List Op) (fd : Nat) : Int := (ops.foldl (Op.report fd) (newOutputMgr, 0)).2

/-- A call of `store_output` reports the full blocks it completes. -/
theorem storeOutput_returns {mgr : OutputMgr} {fd : Nat} {B : List UInt8} (hfd : fd < maxFdSize)
    (hh : OutputMgr.Holds mgr fd B) (buff : List UInt8) :
    ((B ++ buff).length / hashBufferSize : Nat)
      = ((B.length / hashBufferSize : Nat) : Int) + max 0 (storeOutput mgr fd buff).2 := by
  unfold storeOutput
  by_cases hb : buff = []
  · rw [if_pos hb, hb, List.append_nil]
    simp
  · rw [if_neg hb]
    obtain ⟨mgr', h, hget, -, -, hhold⟩ := getOutputHandlerByFd_spec mgr hfd
    obtain ⟨hpush, hcount⟩ := (hhold B hh).push buff
    rw [hpush.count, (hhold B hh).count] at hcount
    rw [hget, hcount]
    show _ = _ + max 0 ((h.push buff).2 : Int)
    omega

/-- One call keeps the reports in step with the stream. -/
theorem Op.report_holds {s : OutputMgr × Int} {fd : Nat} {B : List UInt8} (hfd : fd < maxFdSize)
    (hh : OutputMgr.Holds s.1 fd B) (hn : s.2 = (B.length / hashBufferSize : Nat)) (op : Op) :
    (op.report fd s).2 = ((op.write fd B).length / hashBufferSize : Nat) := by
  cases op with
  | store fd' buff =>
      simp only [Op.report, Op.write]
      by_cases he : fd' = fd
      · subst he
        rw [if_pos rfl, if_pos rfl, storeOutput_returns hfd hh, hn]
      · rw [if_neg he, if_neg he, hn]
  | determine fd' => exact hn
  | getHash fd' hashIndex => exact hn
  | del fd' =>
      simp only [Op.report, Op.write]
      by_cases he : fd' = fd
      · rw [if_pos he, if_pos he]
        rfl
      · rw [if_neg he, if_neg he, hn]

/-- Every history reports as many hashes as the stream has full blocks. -/
theorem reported_eq (ops : List Op) {fd : Nat} (hfd : fd < maxFdSize) :
    reported ops fd = ((written ops fd).length / hashBufferSize : Nat) := by
  suffices h : ∀ (ops : List Op) (s : OutputMgr × Int) B, OutputMgr.Holds s.1 fd B →
      s.2 = (B.length / hashBufferSize : Nat) →
      (ops.foldl (Op.report fd) s).2
        = ((ops.foldl (Op.write fd) B).length / hashBufferSize : Nat) from
    h ops _ _ (.of_none rfl) rfl
  intro ops
  induction ops with
  | nil => exact fun s B _ hn => hn
  | cons op ops ih => exact fun s B hh hn => ih _ _ (hh.run hfd op) (Op.report_holds hfd hh hn op)

/-! ## §9. Descriptors do not see each other. -/

/-- The descriptor of a call. -/
def Op.fd : Op → Nat
  | .store fd _ => fd
  | .determine fd => fd
  | .getHash fd _ => fd
  | .del fd => fd

/-- What a call returns: a number, or a hash. -/
def Op.ret (mgr : OutputMgr) : Op → Int ⊕ UInt64
  | .store fd buff => .inl (storeOutput mgr fd buff).2
  | .determine fd => .inl (determineOutput mgr fd).2
  | .getHash fd hashIndex => .inr (getOutputHash mgr fd hashIndex).2
  | .del fd => .inl (delOutput mgr fd).2

/-- A handler is made when it is first asked for. -/
theorem getOutputHandlerByFd_eq (mgr : OutputMgr) {fd : Nat} (hfd : fd < maxFdSize) :
    getOutputHandlerByFd mgr fd = (Function.update mgr fd (some ((mgr fd).getD newOutputHandler)),
      some ((mgr fd).getD newOutputHandler)) := by
  unfold getOutputHandlerByFd
  rw [if_pos hfd]
  cases hm : mgr fd with
  | none => rfl
  | some h =>
      have hself : Function.update mgr fd (some h) = mgr := by rw [← hm, Function.update_eq_self]
      rw [Option.getD_some, hself]

/-- **A call reads and writes the entry of its own descriptor only.** -/
theorem Op.run_local (op : Op) :
    ∃ f : Option Handler → Option Handler × (Int ⊕ UInt64), ∀ mgr : OutputMgr,
      op.run mgr = Function.update mgr op.fd (f (mgr op.fd)).1 ∧ op.ret mgr = (f (mgr op.fd)).2 := by
  -- past the end of the table every call leaves the entry as it is
  cases op with
  | store fd buff =>
      by_cases hb : buff = []
      · refine ⟨fun c => (c, .inl 0), fun mgr => ?_⟩
        simp [Op.run, Op.ret, storeOutput, hb]
      · by_cases hfd : fd < maxFdSize
        · refine ⟨fun c => (some ((c.getD newOutputHandler).push buff).1,
            .inl ((c.getD newOutputHandler).push buff).2), fun mgr => ?_⟩
          simp [Op.run, Op.ret, Op.fd, storeOutput, hb, getOutputHandlerByFd_eq mgr hfd]
        · refine ⟨fun c => (c, .inl (-1)), fun mgr => ?_⟩
          simp [Op.run, Op.ret, storeOutput, hb, getOutputHandlerByFd_out hfd]
  | determine fd =>
      by_cases hfd : fd < maxFdSize
      · refine ⟨fun c =>
          (some { c.getD newOutputHandler with
            calledCnt := (c.getD newOutputHandler).calledCnt + 1 },
          .inl (if ((c.getD newOutputHandler).calledCnt + 1) % checkPeriod = 0 then
              if 0 ≤ ((c.getD newOutputHandler).count : Int) - checkGoback then
                (c.getD newOutputHandler).count - checkGoback else -1
            else -1)), fun mgr => ?_⟩
        simp [Op.run, Op.ret, Op.fd, determineOutput, getOutputHandlerByFd_eq mgr hfd]
      · refine ⟨fun c => (c, .inl (-1)), fun mgr => ?_⟩
        simp [Op.run, Op.ret, determineOutput, getOutputHandlerByFd_out hfd]
  | getHash fd hashIndex =>
      by_cases hfd : fd < maxFdSize
      · refine ⟨fun c => (some (c.getD newOutputHandler),
          .inr (if hashIndex < (c.getD newOutputHandler).count then
            getValByIndex (c.getD newOutputHandler).outputList hashIndex else 0)), fun mgr => ?_⟩
        simp only [Op.run, Op.ret, Op.fd, getOutputHash, getOutputHandlerByFd_eq mgr hfd]
        exact ⟨trivial, rfl⟩
      · refine ⟨fun c => (c, .inr 0), fun mgr => ?_⟩
        simp [Op.run, Op.ret, getOutputHash, getOutputHandlerByFd_out hfd]
  | del fd =>
      by_cases hfd : fd < maxFdSize
      · refine ⟨fun c => (none, .inl 0), fun mgr => ?_⟩
        simp [Op.run, Op.ret, Op.fd, delOutput, hfd]
      · refine ⟨fun c => (c, .inl (-1)), fun mgr => ?_⟩
        simp [Op.run, Op.ret, delOutput, hfd]

/-- A call leaves the handlers of other descriptors alone. -/
theorem Op.run_of_ne (mgr : OutputMgr) {fd : Nat} {op : Op} (hne : op.fd ≠ fd) :
    op.run mgr fd = mgr fd := by
  obtain ⟨f, hf⟩ := op.run_local
  rw [(hf mgr).1]
  exact Function.update_of_ne (Ne.symm hne) ..

/-- **Only the calls on `fd` make the entry of `fd`.** -/
theorem runOps_filter (ops : List Op) (fd : Nat) :
    runOps ops fd = runOps (ops.filter fun op => op.fd = fd) fd := by
  suffices h : ∀ (ops : List Op) (mgr mgr' : OutputMgr), mgr fd = mgr' fd →
      ops.foldl Op.run mgr fd = (ops.filter fun op => op.fd = fd).foldl Op.run mgr' fd from
    h ops _ _ rfl
  intro ops
  induction ops with
  | nil => exact fun _ _ h => h
  | cons op ops ih =>
      intro mgr mgr' hagree
      by_cases hfd : op.fd = fd
      · obtain ⟨f, hf⟩ := op.run_local
        rw [List.filter_cons_of_pos (by simpa using hfd), List.foldl_cons, List.foldl_cons]
        apply ih
        rw [(hf mgr).1, (hf mgr').1, ← hfd, Function.update_self, Function.update_self, hfd, hagree]
      · rw [List.filter_cons_of_neg (by simpa using hfd), List.foldl_cons]
        exact ih _ _ ((op.run_of_ne mgr hfd).trans hagree)

/-- What a call on `fd` returns depends on the calls on `fd` only. -/
theorem ret_filter (ops : List Op) (op : Op) :
    op.ret (runOps ops) = op.ret (runOps (ops.filter fun op' => op'.fd = op.fd)) := by
  obtain ⟨f, hf⟩ := op.run_local
  rw [(hf _).2, (hf _).2, runOps_filter]

/-! ## §10. The hash list is a function of the byte stream. -/

/-- **The hash list depends only on the byte stream.**  For every history of
calls and every descriptor of the table, with `B` the bytes stored on it since it
was last closed: the handler has one hash per full block of `B`, each the crc of
its block chained from the one before, the rest of `B` in its buffer, as many
hashes as `store_output` has reported, and `get_output_hash` looks them up;
nothing of this is touched by calls on other descriptors.  (`push_size`,
`wait_size` and the return value of `store_output` are `int`s that no buffer
shorter than 2³¹ overflows.) -/
theorem output_list_of_stream (ops : List Op) (fd : Nat) (hfd : fd < maxFdSize) :
    ∃ h, (getOutputHandlerByFd (runOps ops) fd).2 = some h
      ∧ h.count = (written ops fd).length / hashBufferSize
      ∧ h.outputList.length = (written ops fd).length / hashBufferSize
      ∧ (∀ i, i < h.count → h.outputList[i]?
          = some (crc64 ((0 :: h.outputList).getD i 0) (block (written ops fd) i)))
      ∧ h.hashBuffer.length = (written ops fd).length % hashBufferSize
      ∧ h.hashBuffer = (written ops fd).drop
          (hashBufferSize * ((written ops fd).length / hashBufferSize))
      ∧ reported ops fd = h.count
      ∧ (∀ index : Int, (getOutputHash (runOps ops) fd index).2
          = if 0 ≤ index ∧ index < h.count then h.outputList.getD index.toNat 0 else 0)
      ∧ (∀ op : Op, op.fd ≠ fd → op.run (runOps ops) fd = runOps ops fd)
      ∧ runOps ops fd = runOps (ops.filter fun op => op.fd = fd) fd
      ∧ ∀ op : Op, op.fd = fd →
          op.ret (runOps ops) = op.ret (runOps (ops.filter fun op => op.fd = fd)) := by
  obtain ⟨mgr', h, hget, -, -, hhold⟩ := getOutputHandlerByFd_spec (runOps ops) hfd
  have hh := hhold _ (runOps_holds ops hfd)
  refine ⟨h, by rw [hget], hh.count, ?_, ?_, ?_, hh.buffer, ?_, ?_, ?_, runOps_filter ops fd, ?_⟩
  · rw [hh.list, length_hashesOf]
  · intro i hi
    rw [hh.count] at hi
    rw [hh.list, hashesOf_chain hi]
  · have hlen := hh.length
    have hdiv := Nat.div_add_mod (written ops fd).length hashBufferSize
    unfold hashed at hlen
    omega
  · rw [reported_eq ops hfd, hh.count]
  · intro index
    rw [getOutputHash_runOps, if_pos hfd, hashAt, hh.count, hh.list]
    by_cases hi : 0 ≤ index ∧ index < ((written ops fd).length / hashBufferSize : Nat)
    · rw [if_pos hi, if_pos hi, List.getD_eq_getElem?_getD, hashesOf_getElem? (by omega)]
      rfl
    · rw [if_neg hi, if_neg hi]
  · intro op hne
    exact Op.run_of_ne _ hne
  · intro op he
    subst he
    exact ret_filter ops op

/-- Three calls that cut 1200 bytes at 1000 and 1100, with another descriptor in
between: one hash, 176 bytes left over. -/
theorem output_list_of_stream_cut :
    (getOutputHandlerByFd (runOps [.store 7 (List.replicate 1000 1), .store 8 [2],
      .store 7 (List.replicate 100 3), .store 7 (List.replicate 100 4)]) 7).2.map
        (fun h => (h.count, h.hashBuffer.length)) = some (1, 176) := by
  obtain ⟨h, hget, hcount, -, -, hbuf, -⟩ := output_list_of_stream
    [.store 7 (List.replicate 1000 1), .store 8 [2], .store 7 (List.replicate 100 3),
      .store 7 (List.replicate 100 4)] 7 (by decide)
  have hlen : (written [.store 7 (List.replicate 1000 1), .store 8 [2],
      .store 7 (List.replicate 100 3), .store 7 (List.replicate 100 4)] 7).length = 1200 := by
    simp only [written, Op.write, List.foldl_cons, List.foldl_nil, if_true, Nat.reduceEqDiff,
      if_false, List.length_append, List.length_replicate, List.length_nil]
  rw [hlen] at hcount hbuf
  rw [hget, Option.map_some, hcount, hbuf]
  rfl

end RdmaPaxos.Output
