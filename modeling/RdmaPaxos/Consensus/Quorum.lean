/-
  RdmaPaxos.Consensus.Quorum
  ──────────────────────────
  **WHICH BITS THE LEADER COUNTS.**

  The leader polls the ack slots of its entry while they are being written.  It
  matches the stamp in bytes 0 ‥ 7 of a slot and then takes the voter from bytes
  8 ‥ 11, which may not have arrived: it then reads node 0.

  §1  `AckMem` — the leader's ack slots under partially visible ack writes;
  §2  `BallotOk` — what the bits of a call stand for;
  §3  the steps keep it, as long as no node id is read too early;
  §4  the theorem: the count is right in all runs exactly for leader 0 and for
      groups of at most two.
-/
import RdmaPaxos.Consensus.Safety
import Mathlib.Data.Finset.Card

namespace RdmaPaxos

open RdmaPaxos.ByteMemory RdmaPaxos.Ticket RdmaPaxos.Run

/-! ## §1. The ack slots of the leader. -/

/-- Every byte in an ack slot is zero or a visible byte of an ack to that slot. -/
def AckMem (rs : List Request) (acks : List AckWrite) (m : Mem) : Prop :=
  ∀ k q i t, rs[k]? = some q → i < maxServerCount → t < acceptAckSize →
    m (startOf rs k + acceptAckSize * i + t) ≠ 0 →
    ∃ e ∈ acks, e.off = startOf rs k + acceptAckSize * i ∧ t < e.visible
      ∧ m (startOf rs k + acceptAckSize * i + t) = e.byte t

/-- Node `i` has posted its ack for request `id`. -/
def Voted (acks : List AckWrite) (i id : Nat) : Prop :=
  ∃ e ∈ acks, e.src = i ∧ readVs e.byte 0 = stampOf id

section Slots
variable {l : Nat} {rs : List Request} {acks : List AckWrite} {m m' : Mem}

/-- The ack slots of different entries and servers are disjoint. -/
theorem slot_unique {k k' i i' : Nat} (t t' : Nat) {q q' : Request} (hq : rs[k]? = some q)
    (hq' : rs[k']? = some q') (hi : i < maxServerCount) (hi' : i' < maxServerCount)
    (ht : t < acceptAckSize) (ht' : t' < acceptAckSize)
    (heq : startOf rs k + acceptAckSize * i + t = startOf rs k' + acceptAckSize * i' + t') :
    k = k' ∧ i = i' ∧ t = t' := by
  have hlen : 216 ≤ q.entryLen := by unfold Request.entryLen sizeofEntry; omega
  have hlen' : 216 ≤ q'.entryLen := by unfold Request.entryLen sizeofEntry; omega
  simp only [maxServerCount, acceptAckSize] at hi hi' ht ht' heq
  obtain rfl : k = k' := startOf_unique hq hq' (x := startOf rs k + 24 * i + t) (by omega)
    (by omega) (by omega) (by omega)
  exact ⟨rfl, by omega, by omega⟩

/-- An ack addressed to slot `i` of entry `k` comes from node `i` and carries
the stamp of entry `k`. -/
theorem AckOk.at_slot {e : AckWrite} (h : AckOk l rs e) {k i : Nat} {q : Request}
    (hq : rs[k]? = some q) (hi : i < maxServerCount)
    (hoff : e.off = startOf rs k + acceptAckSize * i) :
    e.src = i ∧ readVs e.byte 0 = stampOf k ∧ readLE e.byte 8 4 = i := by
  obtain ⟨k', q', hq', hoff', hvs, hid⟩ := h.slot
  obtain ⟨rfl, rfl, -⟩ := slot_unique 0 0 hq' hq h.src hi (by decide) (by decide)
    (by omega)
  exact ⟨rfl, hvs, hid⟩

/-- Memory changes outside the ack slots. -/
theorem AckMem.congr (h : AckMem rs acks m)
    (hm : ∀ k q t, rs[k]? = some q → t < offMsgVs → m' (startOf rs k + t) = m (startOf rs k + t)) :
    AckMem rs acks m' := by
  intro k q i t hq hi ht hne
  have hin : acceptAckSize * i + t < offMsgVs := by
    unfold maxServerCount at hi
    unfold acceptAckSize at ht ⊢
    unfold offMsgVs
    omega
  have heq := hm k q _ hq hin
  rw [← Nat.add_assoc] at heq
  rw [heq] at hne ⊢
  exact h k q i t hq hi ht hne

/-- Only bytes of one entry behind its ack slots change. -/
theorem AckMem.own (h : AckMem rs acks m) {id : Nat} {q : Request} (hq : rs[id]? = some q)
    (hout : ∀ x, x < startOf rs id + offMsgVs ∨ startOf rs id + q.entryLen ≤ x → m' x = m x) :
    AckMem rs acks m' := by
  refine h.congr fun k r t hr ht => hout _ ?_
  by_contra hin
  have hlen : offMsgVs ≤ r.entryLen := by unfold Request.entryLen sizeofEntry offMsgVs; omega
  obtain rfl : k = id := startOf_unique hr hq (x := startOf rs k + t) (by omega) (by omega)
    (by omega) (by omega)
  omega

/-- One more entry is placed, whose slots are empty. -/
theorem AckMem.append (h : AckMem rs acks m) {q : Request}
    (hzero : ∀ x, startOf rs rs.length ≤ x → x < startOf rs rs.length + offMsgVs → m x = 0) :
    AckMem (rs ++ [q]) acks m := by
  intro k r i t hr hi ht hne
  rcases get_concat hr with ⟨hlt, hold⟩ | ⟨rfl, rfl⟩
  · rw [startOf_append hlt.le] at hne ⊢
    exact h k r i t hold hi ht hne
  · rw [startOf_append (Nat.le_refl _)] at hne
    simp only [maxServerCount, acceptAckSize, offMsgVs] at hi ht hne hzero
    exact absurd (hzero _ (by omega) (by omega)) hne

/-- One more ack is sent. -/
theorem AckMem.post (h : AckMem rs acks m) (e : AckWrite) : AckMem rs (acks ++ [e]) m := by
  intro k q i t hq hi ht hne
  obtain ⟨e', he', hrest⟩ := h k q i t hq hi ht hne
  exact ⟨e', List.mem_append_left _ he', hrest⟩

/-- More bytes of an ack arrive. -/
theorem AckMem.deliver (h : AckMem rs acks m) {a n : Nat} {e : AckWrite}
    (he : acks[a]? = some e) (hok : AckOk l rs e) (hn : e.visible + n ≤ acceptAckSize) :
    AckMem rs (acks.set a { e with visible := e.visible + n })
      (write m (e.off + e.visible) n fun j => e.byte (e.visible + j)) := by
  have hself : { e with visible := e.visible + n } ∈ acks.set a { e with visible := e.visible + n } :=
    List.mem_set (List.getElem?_eq_some_iff.mp he).1 _
  intro k q i t hq hi ht hne
  by_cases hnew : e.off + e.visible ≤ startOf rs k + acceptAckSize * i + t
      ∧ startOf rs k + acceptAckSize * i + t < e.off + e.visible + n
  · -- a byte that arrives now: its slot is the one the ack is addressed to
    obtain ⟨k', q', hq', hoff, -⟩ := hok.slot
    obtain ⟨rfl, rfl, ht'⟩ := slot_unique t
      (startOf rs k + acceptAckSize * i + t - e.off) hq hq' hi hok.src ht (by omega) (by omega)
    refine ⟨_, hself, hoff, by show t < e.visible + n; omega, ?_⟩
    rw [write_inside _ _ hnew.1 hnew.2]
    show e.byte _ = e.byte t
    congr 1
    omega
  · rw [write_outside _ _ (by omega)] at hne ⊢
    obtain ⟨e', he', hoff, hvis, hbyte⟩ := h k q i t hq hi ht hne
    obtain ⟨b, hb⟩ := List.mem_iff_getElem?.mp he'
    rcases eq_or_ne a b with rfl | hab
    · rw [he] at hb
      cases hb
      exact ⟨_, hself, hoff, Nat.lt_add_right _ hvis, hbyte⟩
    · exact ⟨e', List.mem_iff_getElem?.mpr ⟨b, by rw [List.getElem?_set_ne hab]; exact hb⟩,
        hoff, hvis, hbyte⟩

/-- A stamp in slot `i` was put there by node `i`. -/
theorem AckMem.voted (h : AckMem rs acks m) (hok : ∀ e ∈ acks, AckOk l rs e) {id i : Nat}
    {q : Request} (hq : rs[id]? = some q) (hi : i < maxServerCount)
    (hvs : readVs m (startOf rs id + acceptAckSize * i) = stampOf id) : Voted acks i id := by
  -- the view id of the stamp is not zero, so one of its bytes is not
  have hne : readLE m (startOf rs id + acceptAckSize * i) 4 ≠ 0 := by
    intro hzero
    have hview := congrArg ViewStamp.viewId hvs
    unfold readVs at hview
    rw [hzero] at hview
    exact absurd hview (by simp [stampOf])
  obtain ⟨t, ht, hbyte⟩ := exists_byte_of_readLE_ne_zero hne
  obtain ⟨e, he, hoff, -⟩ := h id q i t hq hi (by unfold acceptAckSize; omega) hbyte
  obtain ⟨hsrc, hstamp, -⟩ := (hok e he).at_slot hq hi hoff
  exact ⟨e, he, hsrc, hstamp⟩

/-- The node id in slot `i` is that of node `i`, or still zero. -/
theorem AckMem.nodeId (h : AckMem rs acks m) (hok : ∀ e ∈ acks, AckOk l rs e) {id i : Nat}
    {q : Request} (hq : rs[id]? = some q) (hi : i < maxServerCount) :
    readLE m (startOf rs id + acceptAckSize * i + 8) 4 = 0
      ∨ readLE m (startOf rs id + acceptAckSize * i + 8) 4 = i := by
  have hbyte : ∀ j, j < 4 → m (startOf rs id + acceptAckSize * i + 8 + j) ≠ 0 →
      m (startOf rs id + acceptAckSize * i + 8 + j) = leByte i j := by
    intro j hj hne
    rw [Nat.add_assoc _ 8 j] at hne ⊢
    obtain ⟨e, he, hoff, -, hval⟩ := h id q i (8 + j) hq hi (by unfold acceptAckSize; omega) hne
    obtain ⟨-, -, hid⟩ := (hok e he).at_slot hq hi hoff
    rw [hval, byte_of_readLE (m := e.byte) hj, hid]
  -- node ids are below 256: only byte 8 of the slot counts
  have hhigh : ∀ j, 1 ≤ j → j < 4 → m (startOf rs id + acceptAckSize * i + 8 + j) = 0 := by
    intro j hj hj4
    by_contra hne
    have hzero : leByte i j = 0 := by
      unfold maxServerCount at hi
      have hpow : 256 ^ 1 ≤ 256 ^ j := Nat.pow_le_pow_right (by decide) hj
      unfold leByte
      rw [Nat.div_eq_of_lt (by omega)]
      rfl
    exact hne ((hbyte j hj4 hne).trans hzero)
  by_cases hlow : m (startOf rs id + acceptAckSize * i + 8 + 0) = 0
  · left
    apply readLE_zeroed
    intro j hj
    rcases Nat.eq_zero_or_pos j with rfl | hpos
    · exact hlow
    · exact hhigh j hpos hj
  · right
    rw [readLE_torn (j := 1) (v := i) (by omega) (fun j hj => ?_) hhigh]
    · unfold maxServerCount at hi
      omega
    · obtain rfl : j = 0 := by omega
      exact hbyte 0 (by omega) hlow

end Slots

/-! ## §2. The ballots. -/

/-- An ack that was sent was sent. -/
theorem Voted.mono {acks acks' : List AckWrite} {i id : Nat} (h : Voted acks i id)
    (hacks : ∀ e ∈ acks, ∃ e' ∈ acks', e'.src = e.src ∧ e'.byte = e.byte) : Voted acks' i id := by
  obtain ⟨e, he, hsrc, hvs⟩ := h
  obtain ⟨e', he', hsrc', hbyte⟩ := hacks e he
  exact ⟨e', he', hsrc'.trans hsrc, by rw [hbyte]; exact hvs⟩

/-- The bits of call `id` in a group of `n` with leader `l`. -/
structure BallotOk (n l : Nat) (acks : List AckWrite) (id : Nat) (c : Call) : Prop where
  slot : ∀ i, c.pc = .ackId i → i < maxServerCount ∧ Voted acks i id
  bits : ∀ b, c.bitMap.testBit b = true → b = l ∨ Voted acks b id
  quorum : 6 ≤ c.pc.stage → reachedQuorum c.bitMap n = true

/-- More acks are sent. -/
theorem BallotOk.mono {n l id : Nat} {acks acks' : List AckWrite} {c : Call}
    (h : BallotOk n l acks id c)
    (hacks : ∀ e ∈ acks, ∃ e' ∈ acks', e'.src = e.src ∧ e'.byte = e.byte) :
    BallotOk n l acks' id c :=
  ⟨fun i hi => ⟨(h.slot i hi).1, (h.slot i hi).2.mono hacks⟩,
    fun b hb => (h.bits b hb).imp_right fun hv => hv.mono hacks, h.quorum⟩

/-- The call moves on without looking at an ack. -/
theorem BallotOk.move {n l id : Nat} {acks : List AckWrite} {c : Call}
    (h : BallotOk n l acks id c) {pc : CallPc} (hpc : ∀ i, pc ≠ .ackId i)
    (hstage : pc.stage < 6 ∨ 6 ≤ c.pc.stage) : BallotOk n l acks id { c with pc := pc } := by
  refine ⟨fun i hi => absurd hi (hpc i), h.bits, fun h6 => ?_⟩
  have h6' : 6 ≤ pc.stage := h6
  exact h.quorum (by omega)

/-- A server that may count is counted. -/
theorem BallotOk.count {n l id k i : Nat} {acks : List AckWrite} {c : Call}
    (h : BallotOk n l acks id c) (hk : k = l ∨ Voted acks k id) :
    BallotOk n l acks id { c with bitMap := c.bitMap ||| 1 <<< k, pc := .recheck i } := by
  refine ⟨nofun, fun b hb => ?_, fun h6 => absurd h6 (by decide : ¬ 6 ≤ 5)⟩
  have hb' : (c.bitMap ||| 1 <<< k).testBit b = true := hb
  rw [Nat.testBit_or, Nat.one_shiftLeft, Nat.testBit_two_pow, Bool.or_eq_true,
    decide_eq_true_eq] at hb'
  rcases hb' with hold | rfl
  · exact h.bits b hold
  · exact hk

/-- The ballots of a world. -/
structure Ballots (n l : Nat) (w : World) : Prop where
  size : w.size = n
  mem : AckMem w.requests w.ackWrites (w.nodes l).log.entries
  voter : ∀ e ∈ w.ackWrites, e.src ≠ l ∧ e.src < n
    ∧ ∃ b, w.db e.src (vstol (readVs e.byte 0)) = some b
  call : ∀ id c, w.calls[id]? = some c → BallotOk n l w.ackWrites id c

/-- No node id is read before it has arrived; the first two cases are the groups
in which the value read instead, 0, does no harm. -/
def IdArrived (n l : Nat) (w : World) : Action → Prop
  | .call id _ => ∀ c i, w.calls[id]? = some c → c.pc = .ackId i →
      l = 0 ∨ n ≤ 2 ∨ readLE (w.nodes l).log.entries (c.entry + acceptAckSize * i + 8) 4 = i
  | _ => True

/-- The runs of one fixed leader in which neither a size nor a node id is read before it
has arrived. -/
def ReadsArrived (n l : Nat) (w : World) (a : Action) : Prop :=
  WholeSizes (FixedLeader l) w a ∧ IdArrived n l w a

/-! ## §3. The steps. -/

section Steps
variable {T : Request → Prop} {n l p : Nat} {w : World}

/-- A node takes a step; of the leader's, the ack slots matter. -/
theorem Ballots.setNode (h : Ballots n l w) {i : Nat} {nd : Node}
    (hmem : i = l → AckMem w.requests w.ackWrites nd.log.entries) :
    Ballots n l (w.setNode i nd) := by
  refine ⟨h.size, ?_, h.voter, h.call⟩
  rcases eq_or_ne l i with rfl | hne
  · rw [setNode_nodes_self]
    exact hmem rfl
  · rw [setNode_nodes_ne _ _ _ hne]
    exact h.mem

/-- A call goes on. -/
theorem Ballots.setCall (h : Ballots n l w) {id : Nat} {c c' : Call} (hc : w.calls[id]? = some c)
    (hreq : c'.req = c.req) (hballot : BallotOk n l w.ackWrites id c') :
    Ballots n l (w.setCall id c') := by
  have hreqs : (w.setCall id c').requests = w.requests := map_set_same hc hreq
  refine ⟨h.size, by rw [hreqs]; exact h.mem, h.voter, fun j d hd => ?_⟩
  rcases get_set hd with ⟨rfl, rfl⟩ | ⟨-, hd⟩
  · exact hballot
  · exact h.call j d hd

theorem Ballots.storeRecord (h : Ballots n l w) (i key : Nat) (b : Buf) :
    Ballots n l (w.storeRecord i key b) := by
  refine ⟨h.size, h.mem, fun e he => ?_, h.call⟩
  obtain ⟨hne, hlt, b', hb'⟩ := h.voter e he
  refine ⟨hne, hlt, ?_⟩
  rw [storeRecord_db]
  split
  · exact ⟨b, rfl⟩
  · exact ⟨b', hb'⟩

theorem Ballots.setEntryWrite (h : Ballots n l w) (id i : Nat) (e : EntryWrite) :
    Ballots n l (w.setEntryWrite id i e) := ⟨h.size, h.mem, h.voter, h.call⟩

/-- A request is submitted; the slots of its entry are empty. -/
theorem Ballots.submit (h : Ballots n l w) (hinv : Inv T l (w.nodes l).region w) {q : Request}
    (hwrap : NotWrapping (w.nodes l).log) :
    Ballots n l { w.setNode l ((w.nodes l).alloc q) with
      calls := w.calls ++ [(w.nodes l).newCall l q] } := by
  have hleader := hinv.leader rfl
  have hpos : logAddNewEntry (w.nodes l).log = startOf w.requests w.requests.length := by
    rw [length_requests]
    exact hleader.pos.addNewEntry hwrap
  have hzero : ∀ x, startOf w.requests w.requests.length ≤ x →
      (w.nodes l).log.entries x = 0 := by
    rw [length_requests]
    exact hleader.beyond
  -- the allocation stores the size, which is behind the ack slots
  have hnew : ∀ x, x < startOf w.requests w.requests.length + offMsgVs
      ∨ startOf w.requests w.requests.length + q.entryLen ≤ x →
      ((w.nodes l).alloc q).log.entries x = (w.nodes l).log.entries x := by
    intro x hx
    rw [alloc_log, allocEntry_entries, hpos]
    refine write_outside _ _ ?_
    have hlen : 217 ≤ q.entryLen := by unfold Request.entryLen sizeofEntry; omega
    unfold offMsgVs at hx
    unfold offDataSize
    omega
  have hreqs : World.requests { w.setNode l ((w.nodes l).alloc q) with
      calls := w.calls ++ [(w.nodes l).newCall l q] } = w.requests ++ [q] := List.map_append
  refine ⟨h.size, ?_, h.voter, fun id c hc => ?_⟩
  · rw [hreqs]
    show AckMem _ w.ackWrites ((w.setNode l ((w.nodes l).alloc q)).nodes l).log.entries
    rw [setNode_nodes_self]
    refine (h.mem.append fun x hx _ => hzero x hx).own List.getElem?_concat_length ?_
    rw [startOf_append (Nat.le_refl _)]
    exact hnew
  · rcases get_concat hc with ⟨-, hold⟩ | ⟨rfl, rfl⟩
    · exact h.call id c hold
    · exact ⟨fun i hi => (nomatch hi), fun b hb => absurd hb (by simp [Node.newCall]),
        fun h6 => absurd h6 (by decide : ¬ 6 ≤ 0)⟩

/-- Whom a call reads from a slot it has matched: the voter itself, unless its id is
missing; then 0 is the leader or the only follower. -/
theorem Ballots.read_id (h : Ballots n l w) (hinv : Inv T l (w.nodes l).region w) {id i : Nat}
    {c : Call} (hc : w.calls[id]? = some c) {stored : Bool}
    (harrived : IdArrived n l w (.call id stored)) (hpc : c.pc = .ackId i) {nodeId : Nat}
    (hid : readLE (w.nodes l).log.entries (c.entry + acceptAckSize * i + 8) 4 = nodeId) :
    nodeId = l ∨ Voted w.ackWrites nodeId id := by
  obtain ⟨hi, hvoted⟩ := (h.call id c hc).slot i hpc
  have hwhere := harrived c i hc hpc
  rw [(hinv.call id c hc).entry] at hid hwhere
  have hread := h.mem.nodeId hinv.ack (requests_get hc) hi
  rw [hid] at hread hwhere
  have hnode : nodeId = l ∨ nodeId = i := by
    obtain ⟨e, he, rfl, -⟩ := hvoted
    have hvoter := h.voter e he
    have hgroup := (hinv.group fun hnil => by rw [hnil] at hc; cases hc).1
    rw [h.size] at hgroup
    omega
  rcases hnode with hown | heq
  · exact .inl hown
  · rw [heq]
    exact .inr hvoted

/-- A call takes a step: a bit is set for a slot that was read. -/
theorem Ballots.callStep (h : Ballots n l w) (hinv : Inv T l (w.nodes l).region w) {id : Nat}
    {c : Call} (hc : w.calls[id]? = some c) {stored : Bool} {w' : World}
    (harrived : IdArrived n l w (.call id stored)) (hstep : CallStep w id c stored w') :
    Ballots n l w' := by
  have hcall := hinv.call id c hc
  obtain rfl : l = c.owner := hcall.owner.symm
  have hreq := requests_get hc
  have hbytes := (hinv.leader rfl).mem id c hc
  rw [show startOf (w.calls.map Call.req) id = c.entry from hcall.entry.symm] at hbytes
  have hin := hcall.inside
  have hlen : c.req.entryLen = 217 + c.req.data.size := by
    unfold Request.entryLen sizeofEntry
    omega
  have hballot := h.call id c hc
  -- a write of the call into its own entry, behind the ack slots
  have hown : ∀ m : Mem, (∀ x, x < c.entry + offMsgVs ∨ c.entry + c.req.entryLen ≤ x →
      m x = (w.nodes c.owner).log.entries x) →
      Ballots n c.owner (w.setNode c.owner ((w.nodes c.owner).setEntries m)) := by
    intro m hm
    rw [hcall.entry] at hm
    exact h.setNode fun _ => h.mem.own hreq hm
  cases hstep with
  | sample hpc =>
      refine (hown _ fun x hx => writeVs_outside _ _ ?_).setCall hc rfl
        (hballot.move nofun (.inl (by decide)))
      unfold offMsgVs at hx
      unfold offCanbeExed
      omega
  | fill hpc =>
      refine (hown _ fun x hx => fillEntry_outside _ _ _ _ _ ?_).setCall hc rfl
        (hballot.move nofun (.inl (by decide)))
      unfold offMsgVs at hx ⊢
      unfold offData
      omega
  | store hpc =>
      exact (h.storeRecord _ _ _).setCall hc rfl (hballot.move nofun (.inl (by decide)))
  | fail hpc => exact h.setCall hc rfl (hballot.move nofun (.inl (by decide)))
  | mark hpc =>
      refine (hown _ fun x hx => ?_).setCall hc rfl
        ⟨nofun, fun b hb => ?_, fun h6 => absurd h6 (by decide : ¬ 6 ≤ 4)⟩
      · unfold markEntry
        rw [hbytes.logEntryLen_eq (by omega)]
        refine write_outside _ _ ?_
        unfold offMsgVs at hx
        omega
      · left
        have hb' : (1 <<< c.owner).testBit b = true := hb
        rw [Nat.one_shiftLeft, Nat.testBit_two_pow, decide_eq_true_eq] at hb'
        exact hb'.symm
  | skip hpc hi hno => exact h.setCall hc rfl (hballot.move nofun (.inl (by decide : 4 < 6)))
  | post hpc hi hne hconn =>
      exact (h.setEntryWrite _ _ _).setCall hc rfl (hballot.move nofun (.inl (by decide : 4 < 6)))
  | posted hpc hi => exact h.setCall hc rfl (hballot.move nofun (.inl (by decide)))
  | @hit _ i hpc hi hvs =>
      rw [hcall.entry, hcall.next] at hvs
      have hvoted := h.mem.voted hinv.ack hreq hi hvs
      refine h.setCall hc rfl ⟨fun j hj => ?_, hballot.bits,
        fun h6 => absurd h6 (by decide : ¬ 6 ≤ 5)⟩
      obtain rfl : i = j := CallPc.ackId.inj hj
      exact ⟨hi, hvoted⟩
  | miss hpc hi hvs => exact h.setCall hc rfl (hballot.move nofun (.inl (by decide : 5 < 6)))
  | scanned hpc hi => exact h.setCall hc rfl (hballot.move nofun (.inl (by decide)))
  | ackId hpc hlt hid =>
      exact h.setCall hc rfl (hballot.count (h.read_id hinv hc harrived hpc hid))
  | quorum hpc hq =>
      refine h.setCall hc rfl ⟨nofun, hballot.bits, fun _ => ?_⟩
      rw [← h.size]
      exact hq
  | again hpc hq => exact h.setCall hc rfl (hballot.move nofun (.inl (by decide)))
  | spin hpc htest => exact h
  | leaveSpin hpc htest =>
      exact h.setCall hc rfl (hballot.move nofun (.inr (by rw [hpc]; decide)))
  | incRead hpc => exact h.setCall hc rfl (hballot.move nofun (.inr (by rw [hpc]; decide)))
  | incWrite hpc =>
      have hmoved := hballot.move (by nofun : ∀ i, CallPc.done ≠ .ackId i)
        (.inr (by rw [hpc]; exact Nat.le_succ 6))
      refine Ballots.setCall ?_ hc rfl hmoved
      exact h.setNode fun _ => h.mem

/-- A follower takes a step: it acks what it has stored. -/
theorem Ballots.replicaStep (h : Ballots n l w) (hinv : Inv T l (w.nodes l).region w)
    (hs : ∀ j, Stored (w.db j) (w.nodes j)) {i hash : Nat} {stored : Bool} {w' : World}
    (hup : (w.nodes i).up = true) (hstep : ReplicaStep w i stored hash w') : Ballots n l w' := by
  -- past the head of its loop a node is not the leader
  have hne : (w.nodes i).pc ≠ .poll → i ≠ l := by
    rintro hpc rfl
    exact hinv.not_leader hpc ⟨rfl, rfl⟩
  cases hstep with
  | leader => exact h
  | poll =>
      refine h.setNode ?_
      rintro rfl
      exact h.mem
  | measure hpc | marker hpc => exact h.setNode fun heq => absurd heq (hne (by rw [hpc]; nofun))
  | accept hpc =>
      exact (h.storeRecord _ _ _).setNode fun heq => absurd heq (hne (by rw [hpc]; nofun))
  | acceptUnstored hpc => exact h.setNode fun heq => absurd heq (hne (by rw [hpc]; nofun))
  | unconnected hpc => exact h.setNode fun heq => absurd heq (hne (by rw [hpc]; nofun))
  | @ack _ _ entry leader region hpc hleader hlt hconn =>
      have hil := hne (by rw [hpc]; nofun)
      have hnew : Ballots n l (w.setNode i { w.nodes i with pc := .commit entry }) :=
        h.setNode fun heq => absurd heq hil
      have hkeep : ∀ e ∈ w.ackWrites,
          ∃ e' ∈ w.ackWrites ++ [(w.nodes i).ackWrite i entry leader region],
            e'.src = e.src ∧ e'.byte = e.byte :=
        fun e he => ⟨e, List.mem_append_left _ he, rfl, rfl⟩
      refine ⟨h.size, hnew.mem.post _, fun e he => ?_, fun id c hc => (h.call id c hc).mono hkeep⟩
      rcases List.mem_append.mp he with hold | hlast
      · exact h.voter e hold
      · obtain rfl := List.mem_singleton.mp hlast
        refine ⟨hil, by rw [← h.size]; exact hinv.members i hup, ?_⟩
        -- the stamp of the ack is that of the last entry accepted, which is stored
        obtain ⟨k, hlen, -⟩ := hinv.worksOn (.inl hpc)
        have hreply := ((hinv.replica i fun hboth => hil hboth.1).reply entry hpc).1
        have hstamp : readVs ((w.nodes i).ackWrite i entry leader region).byte 0
            = readVs (w.nodes i).log.entries (entry + acceptAckSize * i) :=
          readVs_congr fun j _ => by
            show (w.nodes i).log.entries (entry + acceptAckSize * i + (0 + j)) = _
            rw [Nat.zero_add]
        rw [hstamp, hreply]
        exact (hs i).1 _ (by omega)
  | commit hpc => exact h.setNode fun heq => absurd heq (hne (by rw [hpc]; nofun))
  | apply hpc => exact h.setNode fun heq => absurd heq (hne (by rw [hpc]; nofun))
  | applied hpc => exact h.setNode fun heq => absurd heq (hne (by rw [hpc]; nofun))

/-- Bytes of an ack arrive. -/
theorem Ballots.deliverAck (h : Ballots n l w) (hinv : Inv T l p w) {a k : Nat} {e : AckWrite}
    (he : w.ackWrites[a]? = some e) (hk : e.visible + k ≤ acceptAckSize) :
    Ballots n l ((w.setAckWrite a { e with visible := e.visible + k }).setNode e.dst
      ((w.nodes e.dst).setEntries (write (w.nodes e.dst).log.entries (e.off + e.visible) k
        fun j => e.byte (e.visible + j)))) := by
  have hmem := List.mem_of_getElem? he
  have hok := hinv.ack e hmem
  obtain rfl : l = e.dst := hok.dst.symm
  -- an ack keeps its sender and its bytes while it arrives
  have hkeep : ∀ e' ∈ w.ackWrites,
      ∃ e'' ∈ w.ackWrites.set a { e with visible := e.visible + k },
        e''.src = e'.src ∧ e''.byte = e'.byte := by
    intro e' he'
    obtain ⟨b, hb⟩ := List.mem_iff_getElem?.mp he'
    rcases eq_or_ne a b with rfl | hab
    · rw [he] at hb
      cases hb
      exact ⟨_, List.mem_set (List.getElem?_eq_some_iff.mp he).1 _, rfl, rfl⟩
    · exact ⟨e', List.mem_iff_getElem?.mpr ⟨b, by rw [List.getElem?_set_ne hab]; exact hb⟩, rfl,
        rfl⟩
  refine ⟨h.size, ?_, fun e' he' => ?_, fun id c hc => (h.call id c hc).mono hkeep⟩
  · rw [setNode_nodes_self]
    exact h.mem.deliver he hok hk
  · rcases List.mem_or_eq_of_mem_set he' with hold | rfl
    · exact h.voter e' hold
    · exact h.voter e hmem

/-- **One step.** -/
theorem Ballots.step (h : Ballots n l w) (hinv : Inv T l (w.nodes l).region w)
    (hs : ∀ j, Stored (w.db j) (w.nodes j)) {a : Action} {w' : World} (hok : FixedLeader l w a)
    (harrived : IdArrived n l w a) (hstep : RdmaPaxos.step w a = some w') : Ballots n l w' := by
  cases step_cases hstep with
  | start | crash | joinReply | connect | destroy | relaunch => exact absurd hok id
  | submit hup hlead hsize hfit =>
      obtain ⟨rfl, hwrap⟩ := hok
      exact h.submit hinv hwrap
  | call hc hup hregion hcall => exact h.callStep hinv hc harrived hcall
  | replica hup hrep => exact h.replicaStep hinv hs hup hrep
  | @deliverEntry id i k e he hup hregion hk =>
      have hne := (hinv.write id i e he).server.1
      exact (h.setEntryWrite id i _).setNode fun heq => absurd heq hne
  | deliverAck he hup hregion hk => exact h.deliverAck hinv he hk

/-- What holds throughout a run in which nothing is read too early. -/
theorem ballots_reaches (h : Reaches step (ReadsArrived n l) (World.booted n l) w) :
    Inv Request.Any l (w.nodes l).region w ∧ (∀ j, Stored (w.db j) (w.nodes j)) ∧ Ballots n l w := by
  refine h.invariant (I := fun w => Inv Request.Any l (w.nodes l).region w
    ∧ (∀ j, Stored (w.db j) (w.nodes j)) ∧ Ballots n l w) ?_ ?_
  · exact ⟨Inv.booted n l _, stored_booted n l, ⟨rfl, fun k q i t hq => (nomatch hq),
      fun e he => (nomatch he), fun id c hc => (nomatch hc)⟩⟩
  · rintro s a s' ⟨hinv, hs, hb⟩ ⟨⟨hok, hsize⟩, harrived⟩ hstep
    rw [hok.region hstep l]
    exact ⟨hinv.preserved hok.soleLeader (.inr hsize) hstep,
      stored_step hinv hs hok.storesSucceed hstep, hb.step hinv hs hok harrived hstep⟩

end Steps

/-! ## §4. The quorum. -/

/-- Node `b` holds the record of call `c`. -/
def HoldsRecord (w : World) (b : Nat) (c : Call) : Prop :=
  ∃ buf, w.db b (vstol c.next) = some buf ∧ Record.decode buf = c.req.record c.next

/-- Node `b` has written its ack to its slot in the entry of call `c`. -/
def AckWritten (w : World) (b : Nat) (c : Call) : Prop :=
  ∃ e ∈ w.ackWrites, e.src = b ∧ e.dst = c.owner ∧ e.off = c.entry + acceptAckSize * b
    ∧ readVs e.byte 0 = c.next

/-- Every bit of every call stands for the leader or for a node that holds the
record and has acked it, and a committed record is held by a majority. -/
def QuorumReal (w : World) : Prop :=
  ∀ (id : Nat) (c : Call), w.calls[id]? = some c →
    (∀ b, c.bitMap.testBit b = true → b = c.owner ∨ HoldsRecord w b c ∧ AckWritten w b c)
      ∧ (c.next.reqId ≤ (w.nodes c.owner).committed.reqId →
        ∃ s : Finset Nat, w.size / 2 + 1 ≤ s.card ∧ ∀ b ∈ s, b < w.size ∧ HoldsRecord w b c)

/-- What a database has under the number of a call is its record. -/
theorem Inv.holdsRecord {l p id i : Nat} {w : World} (h : Inv Request.Any l p w) {c : Call} {b : Buf}
    (hc : w.calls[id]? = some c) (hb : w.db i (vstol (stampOf id)) = some b) :
    HoldsRecord w i c := by
  have hdec := h.decode_eq (requests_get hc) hb
  rw [← (h.call id c hc).next] at hb hdec
  exact ⟨b, hb, hdec⟩

/-- **Honest ballots give real quorums.** -/
theorem Ballots.quorumReal {n l : Nat} {w : World} (h : Ballots n l w)
    (hinv : Inv Request.Any l (w.nodes l).region w) : QuorumReal w := by
  intro id c hc
  have hcall := hinv.call id c hc
  have hballot := h.call id c hc
  have hvoted : ∀ b, Voted w.ackWrites b id → HoldsRecord w b c ∧ AckWritten w b c := by
    rintro b ⟨e, he, rfl, hvs⟩
    obtain ⟨-, -, buf, hbuf⟩ := h.voter e he
    rw [hvs] at hbuf
    obtain ⟨k, q, hq, hoff, hstamp, -⟩ := (hinv.ack e he).slot
    -- the stamp names the entry
    have hshort := hinv.length_lt
    have hk : k < w.requests.length := (List.getElem?_eq_some_iff.mp hq).1
    have hid : id < w.calls.length := (List.getElem?_eq_some_iff.mp hc).1
    rw [length_requests] at hk
    obtain rfl : k = id := vstol_stampOf_inj (by omega) (by omega) (by rw [← hstamp, hvs])
    refine ⟨hinv.holdsRecord hc hbuf, e, he, rfl, ?_, ?_, ?_⟩
    · rw [hcall.owner]
      exact (hinv.ack e he).dst
    · rw [hcall.entry]
      exact hoff
    · rw [hcall.next]
      exact hvs
  refine ⟨fun b hb => ?_, fun hle => ?_⟩
  · rw [hcall.owner]
    exact (hballot.bits b hb).imp_right (hvoted b)
  · -- the commit point is past this request, so it has performed its increment
    have hlead := hinv.leader rfl
    have hshort := hinv.length_lt
    have hid : id < w.calls.length := (List.getElem?_eq_some_iff.mp hc).1
    rw [hcall.owner, hcall.next, UInt32.le_iff_toNat_le, stampOf_reqId (by omega)] at hle
    have hdone := CallPc.phase_finished.mp
      ((hlead.ordered.finished id _ (phases_get hc)).mpr (by omega))
    have hquorum := of_decide_eq_true (hballot.quorum (by rw [hdone]; decide))
    refine ⟨((List.range 64).filter c.bitMap.testBit).toFinset, ?_, fun b hb => ?_⟩
    · rw [List.toFinset_card_of_nodup (List.nodup_range.filter _), h.size]
      exact hquorum
    · have hbit := (List.mem_filter.mp (List.mem_toFinset.mp hb)).2
      rcases hballot.bits b hbit with rfl | hvote
      · obtain ⟨buf, hbuf⟩ := hinv.stored id c hc (by rw [hdone]; decide)
        exact ⟨(hinv.group fun hnil => by rw [hnil] at hc; cases hc).1, hinv.holdsRecord hc hbuf⟩
      · refine ⟨?_, (hvoted b hvote).1⟩
        obtain ⟨e, he, rfl, -⟩ := hvote
        rw [h.size]
        exact (h.voter e he).2.1

/-- A request of leader `l` in a group of `n`; follower `f` acks it, and of the
ack only the stamp has arrived when the leader looks. -/
def tornAck (n l f : Nat) : List Action :=
  [.submit l connectReq] ++ callSteps 0 (n + 5) ++ [.deliverEntry 0 f 217] ++ replicaSteps f 5
    ++ [.deliverAck 0 8] ++ callSteps 0 (f + 2)

/-- What the first call counts for node 0, who its leader is, and whether node 0
has nothing under its stamp. -/
def nodeZero (w : World) : Option (Bool × Nat × Bool) :=
  w.calls[0]?.map fun c => (c.bitMap.testBit 0, c.owner, (w.db 0 (vstol c.next)).isNone)

/-- The outcome of `tornAck`, with a follower other than 0 and the leader. -/
def tornOutcome (n l : Nat) : Option (Option (Bool × Nat × Bool)) :=
  (execOk step (WholeSizes (FixedLeader l)) (World.booted n l)
    (tornAck n l (if l = 1 then 2 else 1))).map nodeZero

/-- The run of the incomplete slot, in all small groups. -/
theorem tornOutcome_eq : ∀ n ∈ List.range 8, ∀ l ∈ List.range n, 3 ≤ n → l ≠ 0 →
    tornOutcome n l = some (some (true, l, true)) := by
  decide +kernel

/-- A bit for node 0 that node 0 has nothing to do with. -/
theorem not_quorumReal {w : World} {l : Nat} (h : nodeZero w = some (true, l, true))
    (hl : l ≠ 0) : ¬ QuorumReal w := by
  obtain ⟨c, hc, hval⟩ := Option.map_eq_some_iff.mp h
  obtain ⟨hbit, hrest⟩ := Prod.mk.inj hval
  obtain ⟨howner, hnone⟩ := Prod.mk.inj hrest
  intro hreal
  rcases (hreal 0 c hc).1 0 hbit with heq | ⟨⟨buf, hbuf, -⟩, -⟩
  · exact hl (by rw [← howner, ← heq])
  · rw [hbuf] at hnone
    cases hnone

/-- **Commit implies a real quorum**, in all runs in which no size is read in part,
exactly if the leader is node 0 or the group has at most two nodes; in every group it
holds in those of them in which no node id is read from an ack slot before it has
arrived. -/
theorem quorumReal_iff (n l : Nat) (hn : n ≤ maxServerCount) (hl : l < n) :
    ((∀ w, Reaches step (WholeSizes (FixedLeader l)) (World.booted n l) w → QuorumReal w)
        ↔ l = 0 ∨ n ≤ 2)
      ∧ ∀ w, Reaches step (ReadsArrived n l) (World.booted n l) w → QuorumReal w := by
  have harrived : ∀ w, Reaches step (ReadsArrived n l) (World.booted n l) w → QuorumReal w := by
    intro w hw
    obtain ⟨hinv, -, hb⟩ := ballots_reaches hw
    exact hb.quorumReal hinv
  refine ⟨⟨fun hall => ?_, fun hcond w hw => ?_⟩, harrived⟩
  · -- a slot of which only the stamp has arrived reads as an ack of node 0
    by_contra hno
    push Not at hno
    obtain ⟨w, hw, hzero⟩ := exists_reaches_of_execOk step (WholeSizes (FixedLeader l))
      (World.booted n l) _ nodeZero (tornOutcome_eq n (List.mem_range.mpr (Nat.lt_succ_of_le hn)) l
        (List.mem_range.mpr hl) hno.2 hno.1)
    exact not_quorumReal hzero hno.1 (hall w hw)
  · -- node 0 is the leader, or the only follower
    refine harrived w (hw.mono fun s a hok => ⟨hok, ?_⟩)
    cases a with
    | call id stored =>
        intro c i _ _
        rcases hcond with h0 | h2
        · exact .inl h0
        · exact .inr (.inl h2)
    | _ => trivial

/-- Three nodes with leader 0. -/
theorem quorumReal_threeNodes :
    (∀ w, Reaches step (WholeSizes (FixedLeader 0)) (World.booted 3 0) w → QuorumReal w)
      ∧ ¬ ∀ w, Reaches step (WholeSizes (FixedLeader 1)) (World.booted 3 1) w → QuorumReal w :=
  ⟨(quorumReal_iff 3 0 (by decide) (by decide)).1.mpr (.inl rfl),
    fun hall => absurd ((quorumReal_iff 3 1 (by decide) (by decide)).1.mp hall) (by decide)⟩

/-- Five nodes with leader 1: node 2 acks, the leader reads its slot once before
and once after the node id arrives, counts nodes 0, 1 and 2 and commits.  Only
nodes 1 and 2 hold the record. -/
theorem quorumReal_fails :
    ∃ w, Reaches step (FixedLeader 1) (World.booted 5 1) w ∧ (w.nodes 1).committed = ⟨1, 1⟩
      ∧ (List.range 5).filter (fun b => (w.db b (vstol ⟨1, 1⟩)).isSome) = [1, 2]
      ∧ ¬ QuorumReal w := by
  obtain ⟨w, hw, hval⟩ := exists_reaches_of_execOk step (FixedLeader 1) (World.booted 5 1)
    (tornAck 5 1 2 ++ callSteps 0 6 ++ [.deliverAck 0 16] ++ callSteps 0 13)
    (fun w => ((w.nodes 1).committed,
      (List.range 5).filter (fun b => (w.db b (vstol ⟨1, 1⟩)).isSome), nodeZero w))
    (v := (⟨1, 1⟩, [1, 2], some (true, 1, true))) (by decide +kernel)
  obtain ⟨hcommitted, hrest⟩ := Prod.mk.inj hval
  obtain ⟨hholders, hzero⟩ := Prod.mk.inj hrest
  exact ⟨w, hw, hcommitted, hholders, not_quorumReal hzero (by decide)⟩

end RdmaPaxos
