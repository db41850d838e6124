/-
  RdmaPaxos.Consensus.ReplicaSteps
  ────────────────────────────────
  **THE STEPS OF `handle_accept_req`, AND ARRIVING BYTES, KEEP THE INVARIANT.**

  §1  the polling loop: some of the size, a length taken from it, and the byte there;
  §2  accepting, acking and applying one entry;
  §3  entry and ack writes becoming visible;
  §4  `reaches_inv` — the invariant holds in every state of every run with a
      sole leader.
-/
import RdmaPaxos.Consensus.LeaderSteps

namespace RdmaPaxos

open RdmaPaxos.ByteMemory RdmaPaxos.Ticket RdmaPaxos.Run

variable {T : Request → Prop} {l p i : Nat} {w : World}

/-! ## §1. Polling. -/

theorem GroupInv.writeBytes (h : GroupInv T l p w) (i : Nat) :
    ∀ k e, w.writesTo i k = some e → WriteBytes (doneCount w.calls) w.requests l k e :=
  fun k e he => (h.write k i e he).bytes

/-- Nothing is ever written to the leader's own log. -/
theorem GroupInv.seen_ne (h : GroupInv T l p w) {region k : Nat}
    (hseen : MarkerSeen T w.requests (w.writesTo i) region k) : i ≠ l := by
  obtain ⟨e, q, hpost, -⟩ := hseen
  exact (h.write k i e hpost.write).server.1

theorem Inv.not_leader (h : Inv T l p w) (hpc : (w.nodes i).pc ≠ .poll) :
    ¬ (i = l ∧ (w.nodes i).region = p) := by
  rintro ⟨rfl, hp⟩
  exact hpc (h.leader hp).pc

/-- A step of node `i` inside its polling loop. -/
theorem Inv.polled (h : Inv T l p w) (log : DareLog) {pc : ReplicaPc} (hup : (w.nodes i).up = true)
    (hmem : log.entries = (w.nodes i).log.entries)
    (happly : ∀ entry index last, pc ≠ .apply entry index last)
    (hold : ∀ entry index last, (w.nodes i).pc ≠ .apply entry index last)
    (hack : ∀ entry, pc ≠ .ack entry)
    (hpos : ¬ (i = l ∧ (w.nodes i).region = p) →
      LogAt w.requests log (w.nodes i).accepted.length)
    (hpc : ¬ (i = l ∧ (w.nodes i).region = p) →
      ReplicaPcOk T w.requests (w.writesTo i) { w.nodes i with log := log, pc := pc })
    (hleader : i = l → (w.nodes i).region = p →
      LogAt w.requests log w.calls.length ∧ pc = .poll) :
    Inv T l p (w.setNode i { w.nodes i with log := log, pc := pc }) := by
  refine h.withNode (h.setNode (fun _ => h.members i hup) (Nat.le_refl _) (h.connected i) ?_
    (fun hne => ?_) (fun hne => ?_)) ?_
  · rintro rfl hlt
    exact (h.born hlt).2
  · have hrep := h.replica i hne
    exact ⟨hpos hne, by rw [hmem]; exact hrep.mem, hrep.accepted, hpc hne,
      fun entry heq => absurd heq (hack entry)⟩
  · have happ := h.applied i hne
    exact ⟨happ.view, happ.le, happ.bound, happ.index, happ.record,
      (commitOk_iff happly).mpr ((commitOk_iff hold).mp happ.commit)⟩
  · rintro rfl hp
    have hlead := h.leader hp
    obtain ⟨hat, rfl⟩ := hleader rfl hp
    exact ⟨hat, hlead.seen, rfl, hlead.accepted, hlead.view, hlead.ordered,
      by rw [hmem]; exact hlead.mem, by rw [hmem]; exact hlead.beyond⟩

/-- Lines 271–273. -/
theorem Inv.poll (h : Inv T l p w) (hup : (w.nodes i).up = true) {off : Nat}
    (hpc : (w.nodes i).pc = .poll) (hwrap : NotWrapping (w.nodes i).log)
    (hoff : logGetEntry (w.nodes i).log (w.nodes i).log.endOff = off) :
    Inv T l p (w.setNode i { w.nodes i with
      log := { (w.nodes i).log with endOff := off }
      pc := if readLE (w.nodes i).log.entries (off + offDataSize) 8 ≠ 0 then .measure off
        else .poll }) := by
  subst hoff
  refine h.polled _ hup rfl ?_ (fun _ _ _ => by rw [hpc]; nofun) ?_ (fun hne => ?_) (fun hne => ?_) ?_
  · intro entry index last
    split <;> nofun
  · intro entry
    split <;> nofun
  · exact (h.replica i hne).pos.readTo hwrap
  · have hrep := h.replica i hne
    have hat := hrep.pos.getEntry hwrap
    unfold ReplicaPcOk
    dsimp only
    by_cases hsize : readLE (w.nodes i).log.entries
        (logGetEntry (w.nodes i).log (w.nodes i).log.endOff + offDataSize) 8 = 0
    · rw [if_neg (not_not.mpr hsize)]
      trivial
    · rw [if_pos hsize]
      refine ⟨hat, rfl, hrep.mem.begun (h.writeBytes i) hrep.accepted_le ?_⟩
      rw [← hat]
      exact hsize
  · rintro rfl hp
    have hlead := h.leader hp
    have hat := hlead.pos.getEntry hwrap
    -- behind its last entry the leader's own log is still zero
    have hzero : readLE (w.nodes i).log.entries
        (logGetEntry (w.nodes i).log (w.nodes i).log.endOff + offDataSize) 8 = 0 := by
      rw [hat]
      exact readLE_zeroed fun j _ => hlead.beyond _ (by omega)
    exact ⟨hlead.pos.readTo hwrap, by rw [if_neg (not_not.mpr hzero)]⟩

/-- Line 275. -/
theorem Inv.measure (h : Inv T l p w) (hup : (w.nodes i).up = true) {stored : Bool} {hash entry : Nat}
    (hT : (∀ q, T q → q.Short) ∨ SizeArrived w (.replica i stored hash))
    (hpc : (w.nodes i).pc = .measure entry) :
    Inv T l p (w.setNode i { w.nodes i with
      pc := .marker entry (logEntryLen (w.nodes i).log.entries entry) }) := by
  have hleader := h.not_leader (by rw [hpc]; nofun)
  have hrep := h.replica i hleader
  have hold := hrep.pc
  unfold ReplicaPcOk at hold
  rw [hpc] at hold
  obtain ⟨hentry, hend, hbegun⟩ := hold
  refine h.polled (w.nodes i).log hup rfl nofun (fun _ _ _ => by rw [hpc]; nofun) nofun
    (fun _ => hrep.pos) (fun _ => ⟨hentry, hend, ?_⟩) (fun heq hp => absurd ⟨heq, hp⟩ hleader)
  rw [hentry]
  refine hrep.mem.measured (h.writeBytes i) hbegun fun e q hpost hq => ?_
  refine hT.imp (fun hshort => hshort q hq) fun harr => ?_
  have hok := h.write _ i e hpost.write
  obtain ⟨c, hc, -⟩ := hok.posted
  refine harr _ (List.getElem?_eq_some_iff.mp hc).1 e hpost.write ?_ hpost.region.symm
  rw [hpc, hentry, hok.bytes.off]

/-- Line 276. -/
theorem Inv.marker (h : Inv T l p w) (hup : (w.nodes i).up = true) {entry len : Nat}
    (hpc : (w.nodes i).pc = .marker entry len) :
    Inv T l p (w.setNode i { w.nodes i with
      pc := if (w.nodes i).log.entries (entry + len - 1) = dummyEnd then .accept entry
        else .poll }) := by
  have hleader := h.not_leader (by rw [hpc]; nofun)
  have hrep := h.replica i hleader
  have hold := hrep.pc
  unfold ReplicaPcOk at hold
  rw [hpc] at hold
  obtain ⟨hentry, hend, hlen⟩ := hold
  refine h.polled (w.nodes i).log hup rfl ?_ (fun _ _ _ => by rw [hpc]; nofun) ?_
    (fun _ => hrep.pos) (fun _ => ?_) (fun heq hp => absurd ⟨heq, hp⟩ hleader)
  · intro entry index last
    split <;> nofun
  · intro entry
    split <;> nofun
  · unfold ReplicaPcOk
    dsimp only
    by_cases hmark : (w.nodes i).log.entries (entry + len - 1) = dummyEnd
    · rw [if_pos hmark]
      rw [hentry] at hmark
      exact ⟨hentry, hend, hrep.mem.seen (h.writeBytes i) hlen hmark⟩
    · rw [if_neg hmark]
      trivial

/-! ## §2. One entry. -/

section Entry
variable {rs : List Request} {writes : Nat → Option EntryWrite} {nd : Node} {B : Nat}

/-- The entry behind the marker test comes next. -/
theorem AcceptedOk.concat {acc : List (ViewStamp × Record)} (h : AcceptedOk T rs acc) {q : Request}
    {r : Record} (hq : rs[acc.length]? = some q) (hr : Reads T q (stampOf acc.length) r) :
    AcceptedOk T rs (acc ++ [(stampOf acc.length, r)]) := by
  refine ⟨?_, fun t v ht => ?_⟩
  · have hlt : acc.length < rs.length := (List.getElem?_eq_some_iff.mp hq).1
    rw [List.length_append, List.length_singleton]
    omega
  · rcases get_concat ht with ⟨-, hold⟩ | ⟨rfl, rfl⟩
    · exact h.get t v hold
    · exact ⟨q, hq, rfl, hr⟩

theorem ReplicaInv.accept (h : ReplicaInv T rs writes i nd)
    (hw : ∀ k e, writes k = some e → WriteBytes B rs l k e) (hi : i < maxServerCount)
    {entry : Nat} (hpc : nd.pc = .accept entry) (hash : Nat) :
    ReplicaInv T rs writes i (nd.accept i entry hash) := by
  have hold := h.pc
  unfold ReplicaPcOk at hold
  rw [hpc] at hold
  obtain ⟨hentry, hend, hseen⟩ := hold
  obtain ⟨q, hq, hin, hbytes, hdec⟩ := h.mem.headBytes hw hseen
  have hlen := hbytes.logEntryLen_eq (by omega)
  have hvs := hbytes.msgVs
  rw [readVs_entryAt] at hvs
  rw [← hentry] at hlen hvs hdec
  have hsucc : (nd.accept i entry hash).accepted.length = nd.accepted.length + 1 := by
    show (nd.accepted ++ [_]).length = _
    rw [List.length_append, List.length_singleton]
  -- the ack goes into a slot of the entry, in front of `msg_vs`
  have hslot : acceptAckSize * i + acceptAckSize ≤ offMsgVs := by
    unfold maxServerCount at hi
    unfold acceptAckSize offMsgVs
    omega
  have hq217 : sizeofEntry < q.entryLen := by unfold Request.entryLen; omega
  refine ⟨?_, ?_, ?_, ?_, fun entry' heq => ?_⟩
  · rw [hsucc, accept_log, hend, hlen, hentry, ← startOf_succ hq]
    exact LogAt.next h.pos.len (by omega) _
  · rw [accept_log]
    refine h.mem.acked hw hq fun x hx => replyEntry_outside _ _ _ _ ?_
    rw [hentry]
    omega
  · show AcceptedOk T rs (nd.accepted ++ [(readVs nd.log.entries (entry + offMsgVs), _)])
    rw [hvs]
    exact h.accepted.concat hq hdec
  · exact ⟨nd.accepted.length, hsucc, hentry, hseen⟩
  · cases heq
    have hid : i < 2 ^ 32 := by
      unfold maxServerCount at hi
      omega
    have hreply := replyEntry_slot nd.log.entries entry i hash hid
    rw [hvs] at hreply
    rw [hsucc, Nat.add_sub_cancel, accept_log]
    exact hreply

end Entry

theorem GroupInv.server_lt (h : GroupInv T l p w) {region k : Nat}
    (hseen : MarkerSeen T w.requests (w.writesTo i) region k) : i < maxServerCount := by
  obtain ⟨e, q, hpost, -⟩ := hseen
  have hok := h.write k i e hpost.write
  obtain ⟨c, hc, -⟩ := hok.posted
  have hgroup := h.group (by rintro hnil; rw [hnil] at hc; cases hc)
  exact lt_of_lt_of_le hok.server.2 hgroup.2

/-- A follower past the marker test changes what only it can see. -/
theorem Inv.follow (h : Inv T l p w) (hup : (w.nodes i).up = true) {nd : Node}
    (hne : i ≠ l) (hregion : nd.region = (w.nodes i).region)
    (hconn : nd.conn = (w.nodes i).conn)
    (hreplica : ReplicaInv T w.requests (w.writesTo i) i nd)
    (happlied : AppliedInv T (doneCount w.calls) w.requests (w.writesTo i) nd) :
    Inv T l p (w.setNode i nd) := by
  refine h.withNode (h.setNode (fun _ => h.members i hup) hregion.ge ?_ (fun heq => absurd heq hne)
    (fun _ => hreplica) (fun _ => happlied)) (fun heq => absurd heq hne)
  rw [hconn]
  exact h.connected i

theorem Inv.accept (h : Inv T l p w) (hup : (w.nodes i).up = true) {entry : Nat}
    (hpc : (w.nodes i).pc = .accept entry) (hash : Nat) :
    Inv T l p (w.setNode i ((w.nodes i).accept i entry hash)) := by
  have hrep := h.replica i (h.not_leader (by rw [hpc]; nofun))
  have hold := hrep.pc
  unfold ReplicaPcOk at hold
  rw [hpc] at hold
  have hne := h.seen_ne hold.2.2
  have happ := h.applied i hne
  refine h.follow hup hne rfl rfl
    (hrep.accept (h.writeBytes i) (h.server_lt hold.2.2) hpc hash)
    ⟨happ.view, happ.le, happ.bound, happ.index, happ.record, ?_⟩
  have hidle : ∀ e index last, (w.nodes i).pc ≠ .apply e index last := by
    rw [hpc]
    nofun
  have hidle' : ∀ e index last, ((w.nodes i).accept i entry hash).pc ≠ .apply e index last := by
    intro e index last heq
    cases heq
  exact (commitOk_iff hidle').mpr ((commitOk_iff hidle).mp happ.commit)

/-- A follower past the accept step moves on inside its loop body. -/
theorem ReplicaInv.advance {rs : List Request} {writes : Nat → Option EntryWrite} {nd nd' : Node}
    (h : ReplicaInv T rs writes i nd) (hlog : nd'.log = nd.log) (hregion : nd'.region = nd.region)
    (hacc : nd'.accepted = nd.accepted) (hpc : ReplicaPcOk T rs writes nd')
    (hack : ∀ entry, nd'.pc ≠ .ack entry) : ReplicaInv T rs writes i nd' :=
  ⟨by rw [hlog, hacc]; exact h.pos, by rw [hlog, hregion]; exact h.mem,
    by rw [hacc]; exact h.accepted, hpc, fun entry heq => absurd heq (hack entry)⟩

/-- The entry a follower past the accept step works on. -/
def WorksOn (T : Request → Prop) (w : World) (i entry k : Nat) : Prop :=
  (w.nodes i).accepted.length = k + 1 ∧ entry = startOf w.requests k
    ∧ MarkerSeen T w.requests (w.writesTo i) (w.nodes i).region k

theorem Inv.worksOn (h : Inv T l p w) {entry : Nat}
    (hpc : (w.nodes i).pc = .ack entry ∨ (w.nodes i).pc = .commit entry
      ∨ ∃ index last, (w.nodes i).pc = .apply entry index last) :
    ∃ k, WorksOn T w i entry k := by
  have hne : (w.nodes i).pc ≠ .poll := by
    rcases hpc with h1 | h1 | ⟨_, _, h1⟩ <;> rw [h1] <;> nofun
  have hold := (h.replica i (h.not_leader hne)).pc
  unfold ReplicaPcOk at hold
  rcases hpc with h1 | h1 | ⟨_, _, h1⟩ <;> rw [h1] at hold <;> exact hold

theorem WorksOn.pcOk {entry k : Nat} (h : WorksOn T w i entry k) {pc : ReplicaPc} {nd : Node}
    (hregion : nd.region = (w.nodes i).region) (hacc : nd.accepted = (w.nodes i).accepted)
    (hpc : nd.pc = pc) (hform : pc = .poll ∨ pc = .commit entry
      ∨ ∃ index last, pc = .apply entry index last) :
    ReplicaPcOk T w.requests (w.writesTo i) nd := by
  unfold ReplicaPcOk
  rw [hpc]
  rcases hform with rfl | rfl | ⟨_, _, rfl⟩
  · trivial
  all_goals
    refine ⟨k, ?_, h.2.1, ?_⟩
    · rw [hacc]
      exact h.1
    · rw [hregion]
      exact h.2.2

/-- Line 345: the follower's turn passes to the commit test. -/
theorem Inv.toCommit (h : Inv T l p w) (hup : (w.nodes i).up = true) {entry : Nat}
    (hpc : (w.nodes i).pc = .ack entry) :
    Inv T l p (w.setNode i { w.nodes i with pc := .commit entry }) := by
  obtain ⟨k, hk⟩ := h.worksOn (.inl hpc)
  have hne := h.seen_ne hk.2.2
  have hrep := h.replica i (fun hboth => hne hboth.1)
  have happ := h.applied i hne
  refine h.follow hup hne rfl rfl
    (hrep.advance rfl rfl rfl (hk.pcOk rfl rfl rfl (.inr (.inl rfl))) nofun)
    ⟨happ.view, happ.le, happ.bound, happ.index, happ.record, ?_⟩
  have hidle : ∀ e index last, (w.nodes i).pc ≠ .apply e index last := by
    rw [hpc]
    nofun
  exact (commitOk_iff hidle).mp happ.commit

theorem GroupInv.setAcks (h : GroupInv T l p w) {acks : List AckWrite}
    (hall : ∀ e ∈ acks, AckOk l w.requests e) : GroupInv T l p { w with ackWrites := acks } := by
  refine ⟨h.members, h.connected, h.group, h.call, h.born, fun id i e he => ?_, hall, h.record,
    h.stored, h.replica, h.applied⟩
  have hold := h.write id i e he
  exact ⟨hold.server, hold.region, hold.posted, hold.bytes⟩

/-- Line 345: the ack goes to the slot of this follower in the leader's entry. -/
theorem Inv.postAck (h : Inv T l p w) (hup : (w.nodes i).up = true) {entry leader region : Nat}
    (hpc : (w.nodes i).pc = .ack entry)
    (hleader : readLE (w.nodes i).log.entries (entry + offNodeId) 4 = leader) :
    Inv T l p { w.setNode i { w.nodes i with pc := .commit entry } with
      ackWrites := w.ackWrites ++ [(w.nodes i).ackWrite i entry leader region] } := by
  have hnew := h.toCommit hup hpc
  obtain ⟨k, hlen, hentry, hseen⟩ := h.worksOn (.inl hpc)
  have hrep := h.replica i fun hboth => h.seen_ne hseen hboth.1
  obtain ⟨q, hq, hin, hbytes, -⟩ := hrep.mem.headBytes (h.writeBytes i) hseen
  have hi := h.server_lt hseen
  have hnode := hbytes.nodeId
  rw [readLE_entryAt, ← hentry, hleader] at hnode
  refine ⟨hnew.setAcks fun e he => ?_, hnew.leader⟩
  rcases List.mem_append.mp he with hold | hlast
  · exact h.ack e hold
  · obtain rfl := List.mem_singleton.mp hlast
    have hreply := hrep.reply entry hpc
    rw [hlen, Nat.add_sub_cancel] at hreply
    refine ⟨hnode, hi, ⟨k, q, hq, ?_, ?_, ?_⟩, Nat.zero_le _⟩
    · -- the tail is the offset of the entry just accepted
      have htail : (w.nodes i).log.tailOff = startOf w.requests k := by
        rcases hrep.pos.offs with ⟨h0, -⟩ | ⟨-, ht, -⟩
        · omega
        · rw [ht, hlen, Nat.add_sub_cancel]
      show ackOffset (w.nodes i).log.tailOff i - offsetofEntries = startOf w.requests k + _ * i
      rw [htail]
      unfold maxServerCount at hi
      unfold logSize at hin
      unfold ackOffset offsetofEntries acceptAckSize
      omega
    · rw [← hreply.1]
      exact readVs_congr fun j _ => by
        show (w.nodes i).log.entries (entry + acceptAckSize * i + (0 + j)) = _
        rw [Nat.zero_add]
    · refine Eq.trans (readLE_shift fun j _ => ?_) hreply.2
      show (w.nodes i).log.entries (entry + acceptAckSize * i + (8 + j)) = _
      exact congrArg _ (Nat.add_assoc _ _ _).symm

/-- The commit point an entry carries, in the follower's memory and in the write. -/
theorem Inv.canbeExed (h : Inv T l p w) {entry k : Nat} (hk : WorksOn T w i entry k) :
    ∃ e x, w.writesTo i k = some e ∧ x ≤ k ∧ x ≤ doneCount w.calls ∧ x < 2 ^ 32
      ∧ readVs e.byte offCanbeExed = ⟨1, UInt32.ofNat x⟩
      ∧ readVs (w.nodes i).log.entries (entry + offCanbeExed) = ⟨1, UInt32.ofNat x⟩ := by
  obtain ⟨hlen, hentry, hseen⟩ := hk
  have hrep := h.replica i fun hboth => h.seen_ne hseen hboth.1
  have hle := hrep.accepted_le
  rw [length_requests] at hle
  have hshort := h.length_lt
  obtain ⟨e, _, hpost, hvis, -⟩ := hseen
  obtain ⟨q, -, -, -, hbytes⟩ := (h.writeBytes i k e hpost.write).bytes
  obtain ⟨x, hx, hxB, hcanbe⟩ := hbytes.canbeExed (by decide)
  refine ⟨e, x, hpost.write, hx, hxB, by omega, hcanbe, ?_⟩
  rw [← hcanbe]
  refine readVs_congr fun j hj => ?_
  unfold sizeofEntry at hvis
  rw [hentry, Nat.add_assoc]
  exact hrep.mem.arrived k e hpost.write hpost.region _ (by unfold offMsgVs offCanbeExed; omega)
    (by unfold offCanbeExed; omega)

/-- Line 347: how far the entry lets the follower apply. -/
theorem Inv.commit (h : Inv T l p w) (hup : (w.nodes i).up = true) {entry : Nat}
    (hpc : (w.nodes i).pc = .commit entry) :
    Inv T l p (w.setNode i { w.nodes i with
      pc := if viewStampComp (readVs (w.nodes i).log.entries (entry + offCanbeExed))
          (w.nodes i).committed > 0
        then .apply entry (vstol (w.nodes i).committed + 1)
          (vstol (readVs (w.nodes i).log.entries (entry + offCanbeExed)))
        else .poll }) := by
  obtain ⟨k, hk⟩ := h.worksOn (.inr (.inl hpc))
  have hne := h.seen_ne hk.2.2
  have hrep := h.replica i (fun hboth => hne hboth.1)
  have happ := h.applied i hne
  obtain ⟨e, x, he, hx, hxB, hx32, hbyte, hmem⟩ := h.canbeExed hk
  have hidle : ∀ e index last, (w.nodes i).pc ≠ .apply e index last := by
    rw [hpc]
    nofun
  have hcommit := (commitOk_iff hidle).mp happ.commit
  have hcommitted : (w.nodes i).committed = ⟨1, (w.nodes i).committed.reqId⟩ := by
    rw [← happ.view]
  -- the commit point `x` of the entry against the records applied
  have htest : viewStampComp (readVs (w.nodes i).log.entries (entry + offCanbeExed))
      (w.nodes i).committed > 0 ↔ (w.nodes i).applied.length < x := by
    rw [hmem, hcommitted, gt_iff_lt, viewStampComp_viewOne, hcommit,
      UInt32.toNat_ofNat_of_lt' hx32]
  by_cases hpos : (w.nodes i).applied.length < x
  · rw [if_pos (htest.mpr hpos), hmem]
    refine h.follow hup hne rfl rfl
      (hrep.advance rfl rfl rfl (hk.pcOk rfl rfl rfl (.inr (.inr ⟨_, _, rfl⟩))) nofun)
      ⟨happ.view, happ.le, happ.bound, happ.index, happ.record, ?_⟩
    refine ⟨k, e, x, hk.1, he, hbyte, hx, hxB, ?_, ?_, hpos.le⟩
    · rw [vstol_viewOne, UInt32.toNat_ofNat_of_lt' hx32]
    · rw [hcommitted, vstol_viewOne, hcommit]
      rfl
  · rw [if_neg fun hgt => hpos (htest.mp hgt)]
    exact h.follow hup hne rfl rfl
      (hrep.advance rfl rfl rfl (hk.pcOk rfl rfl rfl (.inl rfl)) nofun)
      ⟨happ.view, happ.le, happ.bound, happ.index, happ.record, hcommit⟩

/-- Lines 351–354: the next record is applied. -/
theorem Inv.apply (h : Inv T l p w) (hup : (w.nodes i).up = true) {entry index last : Nat}
    (hpc : (w.nodes i).pc = .apply entry index last) (hle : index ≤ last) :
    Inv T l p (w.setNode i { w.nodes i with
      applied := (w.nodes i).applied ++ [(index, w.db i index)]
      pc := .apply entry (index + 1) last }) := by
  obtain ⟨k, hk⟩ := h.worksOn (.inr (.inr ⟨_, _, hpc⟩))
  have hne := h.seen_ne hk.2.2
  have hrep := h.replica i (fun hboth => hne hboth.1)
  have happ := h.applied i hne
  have hacc := hrep.accepted_le
  have hshort := h.length_lt
  rw [length_requests] at hacc
  have hcommit := happ.commit
  unfold CommitOk at hcommit
  rw [hpc] at hcommit
  obtain ⟨k', e, x, hk', he, hbyte, hx, hxB, rfl, rfl, hlex⟩ := hcommit
  have hlt : (w.nodes i).applied.length + 1 ≤ x := by omega
  have hindex : viewBase + ((w.nodes i).applied.length + 1)
      = vstol (stampOf (w.nodes i).applied.length) := (vstol_stampOf (by omega)).symm
  refine h.follow hup hne rfl rfl
    (hrep.advance rfl rfl rfl (hk.pcOk rfl rfl rfl (.inr (.inr ⟨_, _, rfl⟩))) nofun)
    ⟨happ.view, ?_, ?_, fun t v ht => ?_, fun t v b ht hb => ?_, ?_⟩
  · rw [List.length_append, List.length_singleton, length_requests]
    omega
  · rw [List.length_append, List.length_singleton]
    omega
  · rcases get_concat ht with ⟨-, hold⟩ | ⟨rfl, rfl⟩
    · exact happ.index t v hold
    · exact hindex
  · rcases get_concat ht with ⟨-, hold⟩ | ⟨rfl, rfl⟩
    · exact happ.record t v b hold hb
    · -- the store holds a submitted record under this very number
      obtain ⟨id, q, hq, hkey, hdec⟩ := h.record i _ b hb
      have hid : id < w.requests.length := (List.getElem?_eq_some_iff.mp hq).1
      rw [length_requests] at hid
      rw [hindex] at hkey
      obtain rfl := vstol_stampOf_inj (by omega) (by omega) hkey
      exact ⟨q, hq, hdec⟩
  · refine ⟨k', e, x, hk', he, hbyte, hx, hxB, rfl, ?_, ?_⟩
    · rw [List.length_append, List.length_singleton]
      rfl
    · rw [List.length_append, List.length_singleton]
      exact hlt

/-- Line 355: all of them are applied. -/
theorem Inv.doneApplying (h : Inv T l p w) (hup : (w.nodes i).up = true) {entry index last : Nat}
    (hpc : (w.nodes i).pc = .apply entry index last) (hle : ¬ index ≤ last) :
    Inv T l p (w.setNode i { w.nodes i with
      committed := readVs (w.nodes i).log.entries (entry + offCanbeExed)
      pc := .poll }) := by
  obtain ⟨k, hk⟩ := h.worksOn (.inr (.inr ⟨_, _, hpc⟩))
  have hne := h.seen_ne hk.2.2
  have hrep := h.replica i (fun hboth => hne hboth.1)
  have happ := h.applied i hne
  have hcommit := happ.commit
  unfold CommitOk at hcommit
  rw [hpc] at hcommit
  obtain ⟨k', e, x, hk', he, hbyte, hx, hxB, rfl, rfl, hlex⟩ := hcommit
  obtain ⟨e', x', he', -, -, hx32, hbyte', hmem⟩ := h.canbeExed hk
  -- line 355 reads the commit point of the entry again: it is the same entry
  obtain rfl : k' = k := by
    have := hk.1
    omega
  rw [he] at he'
  cases he'
  rw [hmem, ← hbyte', hbyte]
  refine h.follow hup hne rfl rfl
    (hrep.advance rfl rfl rfl (hk.pcOk rfl rfl rfl (.inl rfl)) nofun)
    ⟨rfl, happ.le, happ.bound, happ.index, happ.record, ?_⟩
  have hxlt : x < 2 ^ 32 := by
    have hacc := hrep.accepted_le
    have hshort := h.length_lt
    rw [length_requests] at hacc
    omega
  show (UInt32.ofNat x).toNat = _
  rw [UInt32.toNat_ofNat_of_lt' hxlt]
  show x = (w.nodes i).applied.length
  omega

/-- **Every step of a replica thread keeps the invariant.** -/
theorem Inv.replicaStep (h : Inv T l p w) (hup : (w.nodes i).up = true) {stored : Bool}
    {hash : Nat} {w' : World} (hok : SoleLeader l p w (.replica i stored hash))
    (hT : (∀ q, T q → q.Short) ∨ SizeArrived w (.replica i stored hash))
    (hstep : ReplicaStep w i stored hash w') : Inv T l p w' := by
  cases hstep with
  | leader hpc hlead => exact h
  | poll hpc hlead hoff hin => exact h.poll hup hpc (hok hpc hlead) hoff
  | measure hpc => exact h.measure hup hT hpc
  | marker hpc hin => exact h.marker hup hpc
  | @accept _ entry hpc =>
      have hrep := h.replica i (h.not_leader (by rw [hpc]; nofun))
      have hold := hrep.pc
      unfold ReplicaPcOk at hold
      rw [hpc] at hold
      obtain ⟨hentry, -, hseen⟩ := hold
      obtain ⟨q, hq, -, hbytes, hdec⟩ := hrep.mem.headBytes (h.writeBytes i) hseen
      rw [← hentry] at hbytes hdec
      have hvs := hbytes.msgVs
      rw [readVs_entryAt] at hvs
      have hstored : Inv T l p (w.storeRecord i
          (vstol (readVs (w.nodes i).log.entries (entry + offMsgVs)))
          (recordAt (w.nodes i).log.entries entry)) :=
        ⟨h.storeRecord hq (by rw [hvs]) hdec, h.leader⟩
      exact hstored.accept hup hpc hash
  | acceptUnstored hpc => exact h.accept hup hpc hash
  | unconnected hpc hconn => exact h.toCommit hup hpc
  | ack hpc hleader hlt hconn => exact h.postAck hup hpc hleader
  | commit hpc => exact h.commit hup hpc
  | apply hpc hle => exact h.apply hup hpc hle
  | applied hpc hle => exact h.doneApplying hup hpc hle

/-! ## §3. Arriving bytes. -/

/-- The fields of the entry a follower works on are there: bytes still arriving land
elsewhere. -/
theorem Inv.arrives_elsewhere (h : Inv T l p w) {id k entry n x : Nat} {e : EntryWrite}
    (he : w.entryWrites id i = some e) (hk : e.visible + k ≤ e.len) (hworks : WorksOn T w i entry n)
    (hx : entry ≤ x) (hx' : x < entry + sizeofEntry) :
    x < e.off + e.visible ∨ e.off + e.visible + k ≤ x := by
  obtain ⟨-, hentry, e', r, hpost, hvis', -⟩ := hworks
  have hok := h.write id i e he
  obtain ⟨q, hq, hlenq, -, -⟩ := hok.bytes.bytes
  have hoff := hok.bytes.off
  have hrlen : sizeofEntry ≤ r.entryLen := by unfold Request.entryLen; omega
  by_contra hin
  obtain rfl : id = n :=
    startOf_unique hq hpost.request (x := x) (by omega) (by omega) (by omega) (by omega)
  have hsame : w.writesTo i id = some e := he
  rw [hpost.write] at hsame
  cases hsame
  omega

theorem Inv.deliverEntry (h : Inv T l p w) {id k : Nat} {e : EntryWrite}
    (he : w.entryWrites id i = some e) (hregion : (w.nodes i).region = e.region)
    (hk : e.visible + k ≤ e.len) :
    Inv T l p ((w.setEntryWrite id i { e with visible := e.visible + k }).setNode i
      ((w.nodes i).setEntries (write (w.nodes i).log.entries (e.off + e.visible) k
        fun j => e.byte (e.visible + j)))) := by
  have hok := h.write id i e he
  have hne := hok.server.1
  have hwrite : WriteOk l w id i { e with visible := e.visible + k } :=
    ⟨hok.server, hok.region, hok.posted, hok.bytes.off, hk, hok.bytes.bytes⟩
  have hext : Extends (w.writesTo i)
      (Function.update (w.writesTo i) id (some { e with visible := e.visible + k })) := by
    intro j e' he'
    rcases eq_or_ne j id with rfl | hj
    · have heq : e' = e := by
        have : w.writesTo i j = some e := he
        rw [this] at he'
        exact (Option.some.inj he').symm
      subst heq
      exact ⟨_, Function.update_self .., rfl, rfl, rfl, Nat.le_add_right _ _⟩
    · exact ⟨e', by rw [Function.update_of_ne hj]; exact he', rfl, rfl, rfl, Nat.le_refl _⟩
  have hrep := h.replica i fun hboth => hne hboth.1
  have hmem := hrep.mem.deliver (h.writeBytes i) he hregion.symm hk
  have hnode := h.setEntryWrite hwrite hext
    (m := write (w.nodes i).log.entries (e.off + e.visible) k fun j => e.byte (e.visible + j))
    ⟨⟨hrep.pos.len, hrep.pos.offs⟩, hmem, hrep.accepted, hrep.pc.extend hext, ?_⟩
  · refine ⟨hnode, ?_⟩
    rw [setNode_nodes_ne _ _ _ hne.symm]
    exact h.leader
  · -- the fields of the entry being acked are there, so the bytes land elsewhere
    intro entry hpc
    obtain ⟨n, hlen, hentry, hseen⟩ := h.worksOn (.inl hpc)
    have hi := h.server_lt hseen
    have hslot : acceptAckSize * i + acceptAckSize ≤ sizeofEntry := by
      unfold maxServerCount at hi
      unfold acceptAckSize sizeofEntry
      omega
    have hkeep : ∀ t, t < sizeofEntry →
        write (w.nodes i).log.entries (e.off + e.visible) k (fun j => e.byte (e.visible + j))
          (startOf w.requests n + t) = (w.nodes i).log.entries (startOf w.requests n + t) :=
      fun t ht => write_outside _ _ (h.arrives_elsewhere he hk ⟨hlen, rfl, hseen⟩
        (Nat.le_add_right _ _) (by omega))
    have hreply := hrep.reply entry hpc
    rw [hentry] at hreply ⊢
    unfold acceptAckSize at hslot hreply ⊢
    refine ⟨Eq.trans (readVs_congr fun j hj => ?_) hreply.1,
      Eq.trans (readLE_congr fun j hj => ?_) hreply.2⟩
    · rw [Nat.add_assoc]
      exact hkeep _ (by omega)
    · rw [Nat.add_assoc, Nat.add_assoc]
      exact hkeep _ (by omega)

theorem Inv.deliverAck (h : Inv T l p w) {a k : Nat} {e : AckWrite} (he : w.ackWrites[a]? = some e)
    (hup : (w.nodes e.dst).up = true) (hk : e.visible + k ≤ acceptAckSize) :
    Inv T l p ((w.setAckWrite a { e with visible := e.visible + k }).setNode e.dst
      ((w.nodes e.dst).setEntries (write (w.nodes e.dst).log.entries (e.off + e.visible) k
        fun j => e.byte (e.visible + j)))) := by
  have hok := h.ack e (List.mem_of_getElem? he)
  obtain rfl : l = e.dst := hok.dst.symm
  have hacks : Inv T e.dst p (w.setAckWrite a { e with visible := e.visible + k }) := by
    refine ⟨h.setAcks fun e' he' => ?_, h.leader⟩
    rcases List.mem_or_eq_of_mem_set he' with hold | rfl
    · exact h.ack e' hold
    · exact ⟨hok.dst, hok.src, hok.slot, hk⟩
  obtain ⟨n, q, hq, hoff, -⟩ := hok.slot
  -- only the ack slots of entry `n` change
  have hout : ∀ x, x < startOf w.requests n ∨ startOf w.requests n + offMsgVs ≤ x →
      write (w.nodes e.dst).log.entries (e.off + e.visible) k (fun j => e.byte (e.visible + j)) x
        = (w.nodes e.dst).log.entries x := by
    intro x hx
    refine write_outside _ _ ?_
    have hsrc := hok.src
    unfold maxServerCount at hsrc
    unfold acceptAckSize at hoff hk
    unfold offMsgVs at hx
    omega
  have hn : n < w.requests.length := (List.getElem?_eq_some_iff.mp hq).1
  have hqlen : offMsgVs ≤ q.entryLen := by unfold Request.entryLen sizeofEntry offMsgVs; omega
  refine hacks.withNode (hacks.setNode (fun _ => h.members _ hup) (Nat.le_refl _) (h.connected _)
    (fun _ hlt => (h.born hlt).2) (fun hne => ?_) (fun hne => absurd rfl hne)) (fun _ hp => ?_)
  · have hrep := h.replica e.dst hne
    refine ⟨⟨hrep.pos.len, hrep.pos.offs⟩, hrep.mem.acked (h.writeBytes _) hq hout,
      hrep.accepted, hrep.pc, ?_⟩
    intro entry hpc
    obtain ⟨_, _, _, hseen⟩ := h.worksOn (.inl hpc)
    exact absurd rfl (h.seen_ne hseen)
  · have hlead := h.leader hp
    refine ⟨⟨hlead.pos.len, hlead.pos.offs⟩, hlead.seen, hlead.pc, hlead.accepted, hlead.view,
      hlead.ordered, fun id c hc => ?_, fun x hx => ?_⟩
    · refine (hlead.mem id c hc).congr fun t ht htlen => hout _ ?_
      show startOf w.requests id + t < _ ∨ _ ≤ startOf w.requests id + t
      by_contra hin
      have hreq : w.requests[id]? = some c.req := requests_get hc
      obtain rfl : id = n := startOf_unique hreq hq (x := startOf w.requests id + t) (by omega)
        (by omega) (by omega) (by omega)
      omega
    · have hend := startOf_add_le hq hn
      have hx' : startOf w.requests w.calls.length ≤ x := hx
      rw [length_requests] at hend
      refine Eq.trans (hout x (.inr (by omega))) ?_
      exact hlead.beyond x hx

/-! ## §4. Runs. -/

/-- **One step.** -/
theorem Inv.preserved (h : Inv T l p w) {a : Action} {w' : World} (hok : SoleLeader l p w a)
    (hT : (∀ q, T q → q.Short) ∨ SizeArrived w a) (hstep : step w a = some w') : Inv T l p w' := by
  cases step_cases hstep with
  | start hi hup => exact h.start hi _
  | crash hup => exact h.touch nofun (h.connected _)
  | joinReply hup hne => exact h.touch (fun hup => h.members _ hup) (h.connected _)
  | @connect i j region hup hle hnone =>
      refine h.touch (fun hup => h.members _ hup) fun k r hr => ?_
      rcases eq_or_ne k j with rfl | hne
      · rw [Function.update_self] at hr
        cases hr
        exact hle
      · rw [Function.update_of_ne hne] at hr
        exact h.connected i k r hr
  | @destroy i j hup =>
      refine h.touch (fun hup => h.members _ hup) fun k r hr => ?_
      rcases eq_or_ne k j with rfl | hne
      · rw [Function.update_self] at hr
        cases hr
      · rw [Function.update_of_ne hne] at hr
        exact h.connected i k r hr
  | relaunch hup hlead hpc => exact h.relaunch hup hpc
  | submit hup hlead hsize hfit =>
      obtain ⟨rfl, hp, hwrap⟩ := hok
      exact h.submit hp hwrap hup hsize hfit
  | call hc hup hregion hcall => exact h.callStep hc hregion hcall
  | replica hup hrep => exact h.replicaStep hup hok hT hrep
  | deliverEntry he hup hregion hk => exact h.deliverEntry he hregion hk
  | deliverAck he hup hregion hk => exact h.deliverAck he hup hk

/-- **Every state of every run** with a sole leader, for the requests whose size is one
byte, or for all of them where no size is read in part. -/
theorem reaches_inv {w₀ : World} (h₀ : Inv T l p w₀) {ok : World → Action → Prop}
    (hok : ∀ w a, ok w a → SoleLeader l p w a)
    (hT : (∀ q, T q → q.Short) ∨ ∀ w a, ok w a → SizeArrived w a) (h : Reaches step ok w₀ w) :
    Inv T l p w :=
  h.invariant h₀ fun _ a _ hinv hoka hs =>
    hinv.preserved (hok _ a hoka) (hT.imp_right fun harr => harr _ a hoka) hs

end RdmaPaxos
