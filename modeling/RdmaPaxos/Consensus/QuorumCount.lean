/-
  RdmaPaxos.Consensus.QuorumCount
  ───────────────────────────────
  **MAJORITIES AS BIT MAPS, AND THE LOOP THAT COUNTS THEM** (`reached_quorum`, and the
  `recheck` loop of `leader_handle_submit_req`).

  The loop goes over the ack slots again and again, while the acks are being written,
  and sets the bit of every node whose ack it finds:

      bit_map       ◀─ 1 << leader
      recheck:      ack[0]  ack[1]  …  ack[6]      stamp of the request: set its bit
                    reached_quorum?   no ─▶ recheck

  What it has read of a slot does not depend on what it reads of it next: the three
  fields of an ack are arbitrary at each visit here, so that partly written acks and
  overwritten ones are among the runs.

  §1  `reached_quorum`, and why two quorums meet;
  §2  the loop;
  §3  the theorem;
  §4  the calls of the group run this loop.
-/
import RdmaPaxos.Consensus.Steps
import RdmaPaxos.Lib.BitSet
import RdmaPaxos.Lib.Run
import RdmaPaxos.Lib.Votes

namespace RdmaPaxos

open RdmaPaxos.ByteMemory RdmaPaxos.Run RdmaPaxos.BitSet

/-! ## §1. Quorums. -/

/-- `__builtin_popcountl` is the number of the bits. -/
theorem popcount_eq_card (b : UInt64) : popcount b.toNat = (bits b).card := by
  have hbits : bits b = ((List.range 64).filter b.toNat.testBit).toFinset := by
    ext k
    simp [bits]
  rw [hbits, List.toFinset_card_of_nodup (List.nodup_range.filter _)]
  rfl

/-- `reached_quorum` holds if a majority of bits is set. -/
theorem reachedQuorum_iff {b : UInt64} {n : Nat} :
    reachedQuorum b.toNat n = true ↔ n / 2 + 1 ≤ (bits b).card := by
  unfold reachedQuorum
  rw [popcount_eq_card, decide_eq_true_iff]

/-- **Two quorums meet.** -/
theorem quorums_meet {n : Nat} {a b : UInt64} (ha : bits a ⊆ Finset.range n)
    (hb : bits b ⊆ Finset.range n) (hqa : reachedQuorum a.toNat n = true)
    (hqb : reachedQuorum b.toNat n = true) : ∃ k < n, k ∈ bits a ∧ k ∈ bits b := by
  obtain ⟨k, hka, hkb⟩ :=
    Votes.majorities_meet ha hb (reachedQuorum_iff.mp hqa) (reachedQuorum_iff.mp hqb)
  exact ⟨k, Finset.mem_range.mp (ha hka), hka, hkb⟩

/-! ## §2. The loop. -/

/-- What the loop reads of an ack slot. -/
structure AckRead where
  msgVs : ViewStamp
  nodeId : UInt32

/-- The locals of `leader_handle_submit_req` in the loop. -/
structure Recheck where
  groupSize : Nat
  next : ViewStamp
  i : Nat
  bitMap : UInt64
  /-- the ids of the acks that matched, in the order they were seen -/
  seen : List UInt32

/-- Before the first visit: `bit_map = (1<<my_id)`. -/
def Recheck.start (groupSize : Nat) (next : ViewStamp) (myId : UInt32) : Recheck :=
  ⟨groupSize, next, 0, bit myId, []⟩

/-- The steps of the recheck loop. -/
inductive Poll where
  /-- the next slot is looked at -/
  | slot (ack : AckRead)
  /-- `reached_quorum` fails: `goto recheck` -/
  | again

/-- One step of the loop; none after a quorum. -/
def Recheck.step (s : Recheck) : Poll → Option Recheck
  | .slot ack =>
      if s.i < maxServerCount then
        if ack.msgVs.viewId = s.next.viewId ∧ ack.msgVs.reqId = s.next.reqId then
          some { s with
            i := s.i + 1
            bitMap := s.bitMap ||| bit ack.nodeId
            seen := s.seen ++ [ack.nodeId] }
        else some { s with i := s.i + 1 }
      else none
  | .again =>
      if s.i < maxServerCount ∨ reachedQuorum s.bitMap.toNat s.groupSize = true then none
      else some { s with i := 0 }

/-- Acks for the request carry the id of a server of the group. -/
def IdsBelow (n : Nat) (s : Recheck) : Poll → Prop
  | .slot ack => ack.msgVs.viewId = s.next.viewId ∧ ack.msgVs.reqId = s.next.reqId →
      ack.nodeId.toNat < n
  | .again => True

instance (n : Nat) (s : Recheck) : (p : Poll) → Decidable (IdsBelow n s p)
  | .slot _ => inferInstanceAs (Decidable (_ → _))
  | .again => .isTrue trivial

/-- The leader and the servers whose acks have been seen. -/
def Recheck.voters (s : Recheck) (myId : UInt32) : Finset Nat :=
  (insert myId s.seen.toFinset).image UInt32.toNat

/-- The voters are the leader and whose acks were seen. -/
theorem Recheck.mem_voters {s : Recheck} {myId : UInt32} {k : Nat} :
    k ∈ s.voters myId ↔ k = myId.toNat ∨ ∃ id ∈ s.seen, id.toNat = k := by
  unfold voters
  rw [Finset.mem_image]
  constructor
  · rintro ⟨id, hid, rfl⟩
    rcases Finset.mem_insert.mp hid with rfl | hseen
    · exact .inl rfl
    · exact .inr ⟨id, List.mem_toFinset.mp hseen, rfl⟩
  · rintro (rfl | ⟨id, hid, rfl⟩)
    · exact ⟨myId, Finset.mem_insert_self .., rfl⟩
    · exact ⟨id, Finset.mem_insert_of_mem (List.mem_toFinset.mpr hid), rfl⟩

/-- No two nodes have one number. -/
theorem Recheck.card_voters (s : Recheck) (myId : UInt32) :
    (s.voters myId).card = (insert myId s.seen.toFinset).card :=
  Finset.card_image_of_injective _ fun _ _ => UInt32.toNat_inj.mp

/-- An ack is seen. -/
theorem Recheck.voters_concat (s : Recheck) (myId id : UInt32) (i : Nat) (b : UInt64) :
    Recheck.voters ⟨s.groupSize, s.next, i, b, s.seen ++ [id]⟩ myId
      = s.voters myId ∪ {id.toNat} := by
  ext k
  rw [Finset.mem_union, Finset.mem_singleton, mem_voters, mem_voters]
  simp only [List.mem_append, List.mem_singleton]
  constructor
  · rintro (rfl | ⟨id', hold | rfl, rfl⟩)
    · exact .inl (.inl rfl)
    · exact .inl (.inr ⟨id', hold, rfl⟩)
    · exact .inr rfl
  · rintro ((rfl | ⟨id', hold, rfl⟩) | rfl)
    · exact .inl rfl
    · exact .inr ⟨id', .inl hold, rfl⟩
    · exact .inr ⟨id, .inr rfl, rfl⟩

/-- The map has the bits of the voters. -/
def Recheck.Counts (myId : UInt32) (s : Recheck) : Prop := bits s.bitMap = s.voters myId

/-- The leader's own bit is set at the start. -/
theorem Recheck.counts_start (groupSize : Nat) (next : ViewStamp) {myId : UInt32}
    (hme : myId.toNat < 31) : (Recheck.start groupSize next myId).Counts myId := by
  show bits (bit myId) = _
  rw [bits_bit hme]
  ext k
  rw [mem_voters]
  simp [start]

/-- **One visit.** -/
theorem Recheck.Counts.preserved {s s' : Recheck} {p : Poll} {n : Nat} {myId : UInt32}
    (h : s.Counts myId) (hn : n ≤ maxServerCount) (hok : IdsBelow n s p)
    (hstep : s.step p = some s') : s'.Counts myId := by
  cases p with
  | slot ack =>
      simp only [Recheck.step] at hstep
      split at hstep
      next =>
        split at hstep
        next hmatch =>
          cases hstep
          have hid : ack.nodeId.toNat < 31 :=
            Nat.lt_of_lt_of_le (hok hmatch) (hn.trans (by decide))
          show bits (s.bitMap ||| bit ack.nodeId) = _
          rw [voters_concat, bits_or, bits_bit hid, h]
        next =>
          cases hstep
          exact h
      next => cases hstep
  | again =>
      simp only [Recheck.step] at hstep
      split at hstep
      · cases hstep
      · cases hstep
        exact h

/-- **All visits.** -/
theorem counts_of_reaches {n : Nat} (hn : n ≤ maxServerCount) {next : ViewStamp} {myId : UInt32}
    (hme : myId.toNat < n) {s : Recheck}
    (h : Reaches Recheck.step (IdsBelow n) (.start n next myId) s) : s.Counts myId := by
  have hme' : myId.toNat < 31 := Nat.lt_of_lt_of_le hme (hn.trans (by decide))
  exact h.invariant (I := Recheck.Counts myId) (Recheck.counts_start n next hme')
    fun _ _ _ hs hok hstep => hs.preserved hn hok hstep

/-! ## §3. The theorem. -/

/-- **Quorums and how they are counted.**  Two maps over the servers of a group of up to
64 that both reach a quorum share a server.  However often the recheck loop has gone
over the slots, and whatever it has found there at each visit, as long as acks for the
request carry ids of the group: the map has the bits of the leader and of the servers
whose acks were seen and no others, one for each of them. -/
theorem quorum_intersection_and_count :
    (∀ n, 1 ≤ n → n ≤ 64 → ∀ a b : UInt64,
      (∀ k, a.toNat.testBit k = true → k < n) → (∀ k, b.toNat.testBit k = true → k < n) →
      reachedQuorum a.toNat n = true → reachedQuorum b.toNat n = true →
      ∃ k < n, a.toNat.testBit k = true ∧ b.toNat.testBit k = true)
    ∧ ∀ n, n ≤ maxServerCount → ∀ (next : ViewStamp) (leader : UInt32), leader.toNat < n →
      ∀ s, Reaches Recheck.step (IdsBelow n) (.start n next leader) s →
        (∀ k, s.bitMap.toNat.testBit k = true ↔ k = leader.toNat ∨ ∃ id ∈ s.seen, id.toNat = k)
        ∧ popcount s.bitMap.toNat = (insert leader s.seen.toFinset).card := by
  constructor
  · intro n _ _ a b ha hb hqa hqb
    have hsub : ∀ {c : UInt64}, (∀ k, c.toNat.testBit k = true → k < n) →
        bits c ⊆ Finset.range n := fun hc k hk => Finset.mem_range.mpr (hc k (mem_bits.mp hk))
    obtain ⟨k, hlt, hka, hkb⟩ := quorums_meet (hsub ha) (hsub hb) hqa hqb
    exact ⟨k, hlt, mem_bits.mp hka, mem_bits.mp hkb⟩
  · intro n hn next leader hleader s hs
    have hbits : bits s.bitMap = s.voters leader := counts_of_reaches hn hleader hs
    refine ⟨fun k => ?_, ?_⟩
    · rw [← mem_bits, hbits, Recheck.mem_voters]
    · rw [popcount_eq_card, hbits, Recheck.card_voters]

/-- The ack of server `j` for the first request. -/
def ackOf (j : UInt32) : AckRead := ⟨⟨1, 1⟩, j⟩

/-- Three servers, leader 0: the ack of server 1 is seen in slot 1, and nothing in the
others. -/
def onePass : List Poll :=
  [.slot ⟨⟨0, 0⟩, 0⟩, .slot (ackOf 1)] ++ List.replicate 5 (.slot ⟨⟨0, 0⟩, 0⟩)

/-- One ack of another node, in a group of three. -/
theorem quorum_intersection_and_count_onePass :
    ∃ s, Reaches Recheck.step (IdsBelow 3) (.start 3 ⟨1, 1⟩ 0) s ∧ s.bitMap = 3
      ∧ popcount s.bitMap.toNat = (insert 0 s.seen.toFinset).card := by
  obtain ⟨s, hs, hbits⟩ := exists_reaches_of_execOk Recheck.step (IdsBelow 3) (.start 3 ⟨1, 1⟩ 0)
    onePass Recheck.bitMap (v := 3) (by decide +kernel)
  exact ⟨s, hs, hbits,
    (quorum_intersection_and_count.2 3 (by decide) ⟨1, 1⟩ 0 (by decide) s hs).2⟩

/-! ## §4. The calls of the group. -/

/-- The loop of call `c`, as far as the group model has it. -/
structure Call.Rechecks (c : Call) (n : Nat) (s : Recheck) : Prop where
  size : s.groupSize = n
  next : s.next = c.next
  bitMap : c.bitMap = s.bitMap.toNat
  slot : (c.pc = .recheck s.i ∧ s.i ≤ maxServerCount) ∨ (c.pc = .ackId s.i ∧ s.i < maxServerCount)
    ∨ (c.pc = .quorum ∧ s.i = maxServerCount)

theorem ViewStamp.eq_iff {a b : ViewStamp} : a = b ↔ a.viewId = b.viewId ∧ a.reqId = b.reqId := by
  cases a
  cases b
  exact ViewStamp.mk.injEq .. ▸ Iff.rfl

/-- Setting a bit, on numbers and on words. -/
theorem toNat_or_bit (b : UInt64) {k : Nat} (hk : k < 31) :
    (b ||| bit (UInt32.ofNat k)).toNat = b.toNat ||| 1 <<< k := by
  have hself : (UInt32.ofNat k).toNat = k := UInt32.toNat_ofNat_of_lt' (hk.trans (by decide))
  rw [UInt64.toNat_or, bit_eq (by rw [hself]; exact hk), hself, Nat.one_shiftLeft]

/-- **The group model runs the loop.**  A step of a call that polls its acks is a visit
of a slot, a jump back to the first one, or no step of the loop at all; it leaves the
loop when a quorum is reached. -/
theorem callStep_rechecks {w w' : World} {id : Nat} {c : Call} {stored : Bool} {s : Recheck}
    (hid : w.calls[id]? = some c) (h : c.Rechecks w.size s) (hstep : CallStep w id c stored w') :
    ∃ c', w'.calls[id]? = some c'
      ∧ ((c'.pc = .spin ∧ reachedQuorum s.bitMap.toNat w.size = true)
        ∨ ∃ s', c'.Rechecks w.size s' ∧ (s' = s ∨ ∃ p, s.step p = some s')) := by
  have hset : ∀ c', (w.setCall id c').calls[id]? = some c' := fun c' =>
    List.getElem?_set_self (List.getElem?_eq_some_iff.mp hid).1
  rcases h.slot with ⟨hat, hle⟩ | ⟨hat, hlt⟩ | ⟨hat, hend⟩
  · cases hstep with
    | hit hpc hi hvs =>
        cases hpc.symm.trans hat
        exact ⟨_, hset _, .inr ⟨s, ⟨h.size, h.next, h.bitMap, .inr (.inl ⟨rfl, hi⟩)⟩, .inl rfl⟩⟩
    | miss hpc hi hvs =>
        cases hpc.symm.trans hat
        refine ⟨_, hset _, .inr ⟨{ s with i := s.i + 1 }, ⟨h.size, h.next, h.bitMap, .inl ⟨rfl, hi⟩⟩,
          .inr ⟨.slot ⟨readVs (w.nodes c.owner).log.entries (c.entry + acceptAckSize * s.i), 0⟩, ?_⟩⟩⟩
        rw [← h.next, Ne, ViewStamp.eq_iff] at hvs
        simp only [Recheck.step]
        rw [if_pos hi, if_neg hvs]
    | scanned hpc hi =>
        cases hpc.symm.trans hat
        exact ⟨_, hset _, .inr ⟨s, ⟨h.size, h.next, h.bitMap,
          .inr (.inr ⟨rfl, Nat.le_antisymm hle (Nat.not_lt.mp hi)⟩)⟩, .inl rfl⟩⟩
    | _ hpc => cases hpc.symm.trans hat
  · cases hstep with
    | @ackId _ i nodeId hpc hid' hread =>
        cases hpc.symm.trans hat
        -- the stamp was the one of the request when it was compared
        refine ⟨_, hset _, .inr ⟨{ s with
            i := s.i + 1
            bitMap := s.bitMap ||| bit (UInt32.ofNat nodeId)
            seen := s.seen ++ [UInt32.ofNat nodeId] },
          ⟨h.size, h.next, ?_, .inl ⟨rfl, hlt⟩⟩, .inr ⟨.slot ⟨s.next, UInt32.ofNat nodeId⟩, ?_⟩⟩⟩
        · show c.bitMap ||| 1 <<< nodeId = _
          rw [toNat_or_bit _ hid', h.bitMap]
        · show (if s.i < maxServerCount then _ else none) = _
          rw [if_pos hlt]
          exact if_pos ⟨rfl, rfl⟩
    | _ hpc => cases hpc.symm.trans hat
  · cases hstep with
    | quorum hpc hq =>
        rw [h.bitMap] at hq
        exact ⟨_, hset _, .inl ⟨rfl, hq⟩⟩
    | again hpc hq =>
        refine ⟨_, hset _, .inr ⟨{ s with i := 0 },
          ⟨h.size, h.next, h.bitMap, .inl ⟨rfl, Nat.zero_le _⟩⟩, .inr ⟨.again, ?_⟩⟩⟩
        rw [h.bitMap, ← h.size] at hq
        simp only [Recheck.step]
        rw [if_neg]
        rintro (hlt | hreached)
        · rw [hend] at hlt
          exact Nat.lt_irrefl _ hlt
        · rw [hq] at hreached
          cases hreached
    | _ hpc => cases hpc.symm.trans hat

end RdmaPaxos
