/-
  RdmaPaxos.Output.Chain
  ──────────────────────
  **THE CHAIN OF HASHES AS A REMAINDER** (`output/crc64.c` under `output/output.c`
  and `output/decision.c`).

  The table of `crc64.c` is the one of the polynomial its header names, so the
  hash of a stream is the remainder of the stream, read as a polynomial over
  GF(2), by that generator.  Two things follow.

    • Equal blocks keep different hashes different: once two nodes have diverged
      no later index makes them look equal (`diverged_hashes_stay_apart`).
    • A stream has hash 0 exactly when it is a multiple of the generator, and the
      chain starts from 0: 1024 zero bytes hash to 0, the value that is meant to
      say "not available" (`zero_hash_iff_unavailable`).
-/
import RdmaPaxos.Lib.Crc
import RdmaPaxos.Output.Decision

namespace RdmaPaxos.Output

open RdmaPaxos.Crc

/-! ## §1. `crc64` is a CRC. -/

/-- `Poly` of the header, lowest coefficient in the highest bit. -/
def crc64Poly : BitVec 64 := 0x95ac9329ac4bc9b5

example : crc64Poly = BitVec.reverse 0xad93d23594c935a9 := by decide +kernel

/-- `crc64_tab`, by the index the loop computes. -/
def crc64Word (i : BitVec 8) : BitVec 64 := (crc64Tab.getD i.toNat 0).toBitVec

/-- **The table belongs to the polynomial.** -/
theorem crc64Word_eq (i : BitVec 8) : crc64Word i = (bitStep crc64Poly)^[8] (i.setWidth 64) := by
  revert i
  decide +kernel

theorem crc64Byte_toBitVec (crc : UInt64) (byte : UInt8) :
    (crc64Byte crc byte).toBitVec = tableStep crc64Word crc.toBitVec byte.toBitVec := by
  unfold crc64Byte tableStep crc64Word
  rw [UInt64.toBitVec_xor, UInt64.toBitVec_shiftRight]
  congr 1

theorem crc64_toBitVec (crc : UInt64) (s : List UInt8) :
    (crc64 crc s).toBitVec = (s.map UInt8.toBitVec).foldl (tableStep crc64Word) crc.toBitVec := by
  induction s generalizing crc with
  | nil => rfl
  | cons byte s ih =>
      have hstep : crc64 crc (byte :: s) = crc64 (crc64Byte crc byte) s := rfl
      rw [hstep, ih, crc64Byte_toBitVec]
      rfl

/-- The generator: X⁶⁴ and the polynomial of the header. -/
noncomputable def crc64Gen : Polynomial (ZMod 2) := gen crc64Poly

theorem crc64Gen_coeff_zero : crc64Gen.coeff 0 = 1 := coeff_zero_gen crc64Poly (by decide)

/-- A stream as a polynomial: bytes in order, each lowest bit first. -/
noncomputable def streamPoly (s : List UInt8) : Polynomial (ZMod 2) :=
  ofBits (message (s.map UInt8.toBitVec))

/-- **A block keeps different hashes different.** -/
theorem crc64_injective (s : List UInt8) {crc crc' : UInt64} (h : crc64 crc s = crc64 crc' s) :
    crc = crc' := by
  have hbits := congrArg UInt64.toBitVec h
  rw [crc64_toBitVec, crc64_toBitVec] at hbits
  exact UInt64.toBitVec_inj.1 (foldl_injective (by decide) (by decide) crc64Word_eq
    crc64Gen_coeff_zero _ hbits)

/-- **A stream hashes to 0 exactly if the generator divides it.** -/
theorem crc64_eq_zero_iff (s : List UInt8) : crc64 0 s = 0 ↔ crc64Gen ∣ streamPoly s := by
  have hiff := foldl_eq_zero_iff (by decide) (by decide) crc64Word_eq crc64Gen_coeff_zero
    (s.map UInt8.toBitVec)
  have hbits := crc64_toBitVec 0 s
  constructor
  · intro h
    rw [h] at hbits
    exact hiff.1 hbits.symm
  · intro h
    exact UInt64.toBitVec_inj.1 (hbits.trans (hiff.2 h))

/-! ## §2. Divergence is not masked. -/

/-- Equal blocks carry a difference on. -/
theorem hashesOf_ne_succ {B B' : List UInt8} {j : Nat} (hj : j + 1 < B.length / hashBufferSize)
    (hj' : j + 1 < B'.length / hashBufferSize) (hblock : block B (j + 1) = block B' (j + 1))
    (hne : (hashesOf B)[j]? ≠ (hashesOf B')[j]?) :
    (hashesOf B)[j + 1]? ≠ (hashesOf B')[j + 1]? := by
  rw [hashesOf_getElem? (Nat.lt_of_succ_lt hj), hashesOf_getElem? (Nat.lt_of_succ_lt hj')] at hne
  rw [hashesOf_getElem? hj, hashesOf_getElem? hj', take_succ_block, take_succ_block B', crc64_append,
    crc64_append, hblock]
  intro heq
  exact hne (congrArg some (crc64_injective _ (Option.some.inj heq)))

/-- A difference is carried through all later blocks both nodes have. -/
theorem hashesOf_ne_of_le {B B' : List UInt8} {i j : Nat} (hij : i ≤ j)
    (hne : (hashesOf B)[i]? ≠ (hashesOf B')[i]?)
    (hblocks : ∀ k, i < k → k < B.length / hashBufferSize → k < B'.length / hashBufferSize →
      block B k = block B' k)
    (hj : j < B.length / hashBufferSize) (hj' : j < B'.length / hashBufferSize) :
    (hashesOf B)[j]? ≠ (hashesOf B')[j]? := by
  induction j, hij using Nat.le_induction with
  | base => exact hne
  | succ j hij ih =>
      have hprev := ih (Nat.lt_of_succ_lt hj) (Nat.lt_of_succ_lt hj')
      exact hashesOf_ne_succ hj hj' (hblocks (j + 1) (by omega) hj hj') hprev

/-- **Divergence is never masked later.**  Two nodes, each with its own history
of calls: if their hash lists for a connection differ at `i` and the blocks after
`i` that both have are the same, the lists differ at every index from `i` on that
one of them has, and where both have a hash `get_output_hash` returns different
values. -/
theorem diverged_hashes_stay_apart (ops ops' : List Op) (fd fd' : Nat) (hfd : fd < maxFdSize)
    (hfd' : fd' < maxFdSize) (h h' : Handler)
    (hget : (getOutputHandlerByFd (runOps ops) fd).2 = some h)
    (hget' : (getOutputHandlerByFd (runOps ops') fd').2 = some h') (i : Nat)
    (hdiff : h.outputList[i]? ≠ h'.outputList[i]?)
    (hblocks : ∀ k, i < k → k < h.count → k < h'.count →
      block (written ops fd) k = block (written ops' fd') k) :
    ∀ j, i ≤ j →
      (j < h.count ∨ j < h'.count → h.outputList[j]? ≠ h'.outputList[j]?)
      ∧ (j < h.count → j < h'.count →
          (getOutputHash (runOps ops) fd j).2 ≠ (getOutputHash (runOps ops') fd' j).2) := by
  obtain ⟨_, h₁, hget₁, -, -, hhold₁⟩ := getOutputHandlerByFd_spec (runOps ops) hfd
  obtain ⟨_, h₂, hget₂, -, -, hhold₂⟩ := getOutputHandlerByFd_spec (runOps ops') hfd'
  have hh := hhold₁ _ (runOps_holds ops hfd)
  have hh' := hhold₂ _ (runOps_holds ops' hfd')
  rw [hget₁] at hget
  rw [hget₂] at hget'
  cases hget
  cases hget'
  rw [hh.list, hh'.list] at hdiff
  rw [hh.count, hh'.count] at hblocks
  intro j hij
  rw [hh.list, hh'.list, hh.count, hh'.count]
  have hboth : j < (written ops fd).length / hashBufferSize →
      j < (written ops' fd').length / hashBufferSize →
      (hashesOf (written ops fd))[j]? ≠ (hashesOf (written ops' fd'))[j]? :=
    hashesOf_ne_of_le hij hdiff hblocks
  constructor
  · intro hone
    by_cases hj : j < (written ops fd).length / hashBufferSize
    · by_cases hj' : j < (written ops' fd').length / hashBufferSize
      · exact hboth hj hj'
      · -- the second list has ended
        rw [hashesOf_getElem? hj, List.getElem?_eq_none (by rw [length_hashesOf]; omega)]
        exact Option.some_ne_none _
    · have hj' : j < (written ops' fd').length / hashBufferSize := hone.resolve_left hj
      rw [hashesOf_getElem? hj', List.getElem?_eq_none (by rw [length_hashesOf]; omega)]
      exact (Option.some_ne_none _).symm
  · intro hj hj'
    have hne := hboth hj hj'
    rw [hashesOf_getElem? hj, hashesOf_getElem? hj'] at hne
    rw [getOutputHash_runOps, getOutputHash_runOps, if_pos hfd, if_pos hfd', hashAt, hashAt,
      if_pos ⟨by omega, by omega⟩, if_pos ⟨by omega, by omega⟩, Int.toNat_natCast]
    exact fun heq => hne (congrArg some heq)

/-- Two blocks on descriptor 5. -/
def twoBlocks (first second : List UInt8) : List Op := [.store 5 first, .store 5 second]

theorem crc64_oneBlock : crc64 0 oneBlock = 0x7ad870c830358979 := by
  have hlast : crc64 0 [1] = 0x7ad870c830358979 := by decide +kernel
  rw [oneBlock, crc64_append, crc64_zeros, hlast]

theorem written_twoBlocks (first second : List UInt8) :
    written (twoBlocks first second) 5 = first ++ second := by
  simp [written, twoBlocks, Op.write]

/-- The handler after two blocks: two hashes, the first that of the first block. -/
theorem twoBlocks_handler {first second : List UInt8} (h₁ : first.length = hashBufferSize)
    (h₂ : second.length = hashBufferSize) :
    ∃ h, (getOutputHandlerByFd (runOps (twoBlocks first second)) 5).2 = some h ∧ h.count = 2
      ∧ h.outputList[0]? = some (crc64 0 first) := by
  obtain ⟨_, h, hget, -, -, hhold⟩ :=
    getOutputHandlerByFd_spec (runOps (twoBlocks first second)) (show 5 < maxFdSize by decide)
  have hh := hhold _ (runOps_holds _ (by decide))
  rw [written_twoBlocks] at hh
  have hcount : (first ++ second).length / hashBufferSize = 2 := by
    rw [List.length_append, h₁, h₂]
    rfl
  refine ⟨h, by rw [hget], hh.count.trans hcount, ?_⟩
  rw [hh.list, hashesOf_getElem? (by omega), List.take_left' (by rw [h₁]; rfl)]

/-- One node has written zeros first, the other has not; the same second block
does not bring them together. -/
theorem diverged_hashes_stay_apart_second :
    (getOutputHash (runOps (twoBlocks oneBlock oneBlock)) 5 1).2
      ≠ (getOutputHash (runOps (twoBlocks (List.replicate hashBufferSize 0) oneBlock)) 5 1).2 := by
  have hzeros : (List.replicate hashBufferSize (0 : UInt8)).length = hashBufferSize :=
    List.length_replicate
  obtain ⟨h, hget, hcount, hfirst⟩ := twoBlocks_handler length_oneBlock length_oneBlock
  obtain ⟨h', hget', hcount', hfirst'⟩ := twoBlocks_handler hzeros length_oneBlock
  refine (diverged_hashes_stay_apart _ _ 5 5 (by decide) (by decide) h h' hget hget' 0 ?_ ?_ 1
    (by decide)).2 (by omega) (by omega)
  · rw [hfirst, hfirst', crc64_oneBlock, crc64_zeros]
    decide
  · intro k hk hk₁ hk₂
    obtain rfl : k = 1 := by omega
    rw [written_twoBlocks, written_twoBlocks, block, block,
      List.drop_left' (by rw [length_oneBlock, Nat.mul_one]),
      List.drop_left' (by rw [hzeros, Nat.mul_one])]

/-! ## §3. Zero is not a safe sentinel. -/

/-- The nodes of a group: for each the history of its output manager and the
descriptor of the connection there. -/
abbrev OutputNode := List Op × Nat

/-- The hash a node has at an index. -/
def OutputNode.hash (node : OutputNode) (index : Int) : UInt64 :=
  (getOutputHash (runOps node.1) node.2 index).2

/-- The node has produced block `index`. -/
def OutputNode.Available (node : OutputNode) (index : Int) : Prop :=
  0 ≤ index ∧ index < ((written node.1 node.2).length / hashBufferSize : Nat)

theorem OutputNode.hash_of_not_available {node : OutputNode} {index : Int}
    (h : ¬ node.Available index) : node.hash index = 0 := by
  unfold OutputNode.hash
  rw [getOutputHash_runOps, hashAt]
  split
  · exact if_neg h
  · rfl

/-- A hash that is there is 0 exactly if the generator divides the blocks up to
it. -/
theorem OutputNode.hash_eq_zero_iff {node : OutputNode} (hfd : node.2 < maxFdSize) {i : Nat}
    (hi : i < (written node.1 node.2).length / hashBufferSize) :
    node.hash i = 0
      ↔ crc64Gen ∣ streamPoly ((written node.1 node.2).take (hashBufferSize * (i + 1))) := by
  unfold OutputNode.hash
  rw [getOutputHash_runOps, if_pos hfd, hashAt, if_pos ⟨by omega, by omega⟩, Int.toNat_natCast,
    crc64_eq_zero_iff]

/-- **When zero tells an unavailable hash**: exactly if no node has written a
whole number of blocks that the generator divides.  Then `get_output_hash`
returns 0 for the missing hashes only, and `do_decision` stops for a zero only if
a node has not produced the block. -/
theorem zero_hash_iff_unavailable (nodes : List OutputNode)
    (hfd : ∀ node ∈ nodes, node.2 < maxFdSize) :
    ((∀ node ∈ nodes, ∀ index, node.hash index = 0 ↔ ¬ node.Available index)
      ∧ ∀ (index : Int) (peers : List OutputPeer),
          peers.map OutputPeer.hash = nodes.map (fun node => node.hash index) →
          countHash peers 0 ≠ 0 → ∃ node ∈ nodes, ¬ node.Available index)
    ↔ ∀ node ∈ nodes, ∀ i, i < (written node.1 node.2).length / hashBufferSize →
        ¬ crc64Gen ∣ streamPoly ((written node.1 node.2).take (hashBufferSize * (i + 1))) := by
  constructor
  · rintro ⟨hzero, -⟩ node hnode i hi hdvd
    have hunavailable := (hzero node hnode i).1 ((OutputNode.hash_eq_zero_iff (hfd node hnode) hi).2 hdvd)
    exact hunavailable ⟨by omega, by omega⟩
  · intro hdvd
    have hzero : ∀ node ∈ nodes, ∀ index, node.hash index = 0 ↔ ¬ node.Available index := by
      intro node hnode index
      refine ⟨fun h0 hav => ?_, OutputNode.hash_of_not_available⟩
      have hlt : index.toNat < (written node.1 node.2).length / hashBufferSize := by
        have := hav.1
        have := hav.2
        omega
      rw [show index = (index.toNat : Int) from (Int.toNat_of_nonneg hav.1).symm] at h0
      exact hdvd node hnode _ hlt ((OutputNode.hash_eq_zero_iff (hfd node hnode) hlt).1 h0)
    refine ⟨hzero, ?_⟩
    intro index peers hpeers hcount
    -- a zero among the peers is a zero of some node
    obtain ⟨p, hp, hp0⟩ := countHash_pos (Nat.pos_of_ne_zero hcount)
    have hmem : p.hash ∈ nodes.map fun node => node.hash index := hpeers ▸ List.mem_map_of_mem hp
    obtain ⟨node, hnode, heq⟩ := List.mem_map.1 hmem
    exact ⟨node, hnode, (hzero node hnode index).1 (heq.trans hp0)⟩

theorem written_store (fd : Nat) (buff : List UInt8) : written [.store fd buff] fd = buff := by
  simp [written, Op.write]

/-- A block that does not hash to 0: its hash is told from the missing ones. -/
theorem zero_hash_iff_unavailable_oneBlock :
    OutputNode.hash ([.store 5 oneBlock], 5) 0 ≠ 0
      ∧ OutputNode.hash ([.store 5 oneBlock], 5) 1 = 0 := by
  have hblocks : hashBufferSize / hashBufferSize = 1 := by decide
  have hiff : ∀ index, OutputNode.hash ([.store 5 oneBlock], 5) index = 0
      ↔ ¬ OutputNode.Available ([.store 5 oneBlock], 5) index := by
    refine ((zero_hash_iff_unavailable [([.store 5 oneBlock], 5)] (by decide)).2 ?_).1 _
      List.mem_cons_self
    intro node hnode i hi hdvd
    obtain rfl := List.mem_singleton.1 hnode
    simp only [written_store, length_oneBlock] at hi hdvd
    obtain rfl : i = 0 := by omega
    rw [List.take_of_length_le (by rw [length_oneBlock]; decide), ← crc64_eq_zero_iff,
      crc64_oneBlock] at hdvd
    exact absurd hdvd (by decide)
  have havailable : ∀ index : Int, OutputNode.Available ([.store 5 oneBlock], 5) index
      ↔ 0 ≤ index ∧ index < 1 := by
    intro index
    unfold OutputNode.Available
    simp only [written_store, length_oneBlock, hblocks, Nat.cast_one]
  exact ⟨fun h0 => (hiff 0).1 h0 ((havailable 0).2 (by omega)),
    (hiff 1).2 fun hone => by have := (havailable 1).1 hone; omega⟩

/-- **1024 zero bytes have a hash, and it is 0.** -/
theorem zero_hash_of_zeros :
    ¬ ∀ (ops : List Op) (fd : Nat), fd < maxFdSize → ∀ index : Int, 0 ≤ index →
        index < ((written ops fd).length / hashBufferSize : Nat) →
        (getOutputHash (runOps ops) fd index).2 ≠ 0 := by
  intro hall
  have hlen : (written [.store 5 (List.replicate hashBufferSize 0)] 5).length = hashBufferSize := by
    rw [written_store, List.length_replicate]
  have hin : (0 : Int) < ((written [.store 5 (List.replicate hashBufferSize 0)] 5).length
      / hashBufferSize : Nat) := by
    rw [hlen]
    decide
  apply hall [.store 5 (List.replicate hashBufferSize 0)] 5 (by decide) 0 (by decide) hin
  rw [getOutputHash_runOps, if_pos (by decide), hashAt, if_pos ⟨by decide, hin⟩, written_store,
    List.take_replicate, crc64_zeros]

end RdmaPaxos.Output
