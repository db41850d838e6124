/-
  RdmaPaxos.Consensus.CommitOrder
  ───────────────────────────────
  **THE UNLOCKED INCREMENT OF `highest_committed_vs`.**

  The spin-wait makes the request number a ticket: a call enters when its number
  is the next one to commit, so at most one call is between the wait and the end
  of its increment, and no increment is lost (`Ticket.Ordered`).  But the number
  is read back from the entry in the log, `entry->msg_vs.req_id`, so the argument
  needs the entry of a waiting call to stay as the call wrote it.  Nothing in the
  program ensures that once the log wraps: a later entry, or a late ack for an
  earlier one, may be written over it.

  §1  the property, and the runs;
  §2  the invariant, and how it is kept when one component changes;
  §3  the steps of the calls;
  §4  all steps, the theorem, and a run in which an entry is overwritten.
-/
import RdmaPaxos.Consensus.Safety

namespace RdmaPaxos

open RdmaPaxos.ByteMemory RdmaPaxos.Ticket RdmaPaxos.Run

/-! ## §1. The property. -/

/-- Past the spin-wait and before the end of the increment. -/
def CallPc.committing : CallPc → Bool
  | .incRead => true
  | .incWrite _ => true
  | _ => false

/-- Neither returned nor failed. -/
def CallPc.live : CallPc → Bool
  | .done => false
  | .failed => false
  | _ => true

/-- The commits of leader `l` happen one by one, in the order of the requests. -/
structure CommitOrder (l : Nat) (w : World) : Prop where
  /-- the requests are numbered 1, 2, 3, … -/
  number : ∀ (id : Nat) (c : Call), w.calls[id]? = some c → c.next.reqId.toNat = id + 1
  /-- exactly the requests up to the commit point have performed their increment -/
  exact : ∀ c ∈ w.calls, c.pc = .done ↔ c.next.reqId.toNat ≤ (w.nodes l).committed.reqId.toNat
  /-- no increment is lost -/
  count : doneCount w.calls = (w.nodes l).committed.reqId.toNat
  quorum : ∀ c ∈ w.calls, c.pc = .done → reachedQuorum c.bitMap w.size = true
  exclusive : ∀ (i j : Nat) (c d : Call), w.calls[i]? = some c → w.calls[j]? = some d →
    c.pc.committing = true → d.pc.committing = true → i = j

/-- One process leads, on node `l`, and takes fewer than 2³² - 1 requests; stores
may fail, and other nodes may come and go. -/
def OneProcess (l : Nat) (w : World) : Action → Prop
  | .submit i _ => i = l ∧ w.calls.length + 1 < 2 ^ 32 - 1
  | .start i _ => i ≠ l
  | .joinReply i _ => i ≠ l
  | _ => True

instance (l : Nat) (w : World) : (a : Action) → Decidable (OneProcess l w a)
  | .submit .. => inferInstanceAs (Decidable (_ ∧ _))
  | .start .. | .joinReply .. => inferInstanceAs (Decidable (_ ≠ _))
  | .crash .. | .connect .. | .destroy .. | .relaunch .. | .call .. | .replica ..
  | .deliverEntry .. | .deliverAck .. => isTrue trivial

/-- The `k` bytes at `a` are none of those from `msg_vs` on in the entry of `c`. -/
def Call.Clear (c : Call) (a k : Nat) : Prop :=
  a + k ≤ c.entry + offMsgVs ∨ c.entry + c.req.entryLen ≤ a

instance (c : Call) (a k : Nat) : Decidable (c.Clear a k) := inferInstanceAs (Decidable (_ ∨ _))

/-- No entry is placed over that of a call which has not returned, and no ack
arrives there outside the ack slots. -/
def EntriesKept (l : Nat) (w : World) : Action → Prop
  | .submit _ q => ∀ c ∈ w.calls, c.pc.live = true →
      (allocEntry (w.nodes l).log q.data.size).1 + q.entryLen ≤ c.entry
        ∨ c.entry + c.req.entryLen ≤ (allocEntry (w.nodes l).log q.data.size).1
  | .deliverAck a k => ∀ e ∈ w.ackWrites[a]?, e.dst = l →
      ∀ c ∈ w.calls, c.pc.live = true → c.Clear (e.off + e.visible) k
  | _ => True

instance (l : Nat) (w : World) : (a : Action) → Decidable (EntriesKept l w a)
  | .submit .. => inferInstanceAs (Decidable (∀ c ∈ w.calls, _ → _ ∨ _))
  | .deliverAck a _ => inferInstanceAs (Decidable (∀ e ∈ w.ackWrites[a]?, _ → _))
  | .start .. | .crash .. | .joinReply .. | .connect .. | .destroy .. | .relaunch ..
  | .call .. | .replica .. | .deliverEntry .. => isTrue trivial

/-! ## §2. The invariant. -/

/-- What the leader's memory keeps for a call: the size, and from line 182 on the stamp. -/
structure Held (m : Mem) (c : Call) : Prop where
  size : readLE m (c.entry + offDataSize) 8 = c.req.data.size + 1
  stamp : 2 ≤ c.pc.stage → readVs m (c.entry + offMsgVs) = c.next

/-- The fixed part of call `id`. -/
structure TicketOk (l id : Nat) (c : Call) : Prop where
  owner : c.owner = l
  next : c.next = stampOf id
  inside : c.entry + c.req.entryLen ≤ logSize

/-- One leader process at work: its stamps, its calls and their entries. -/
structure Tickets (l : Nat) (w : World) : Prop where
  leads : (w.nodes l).leaderId = l
  idle : (w.nodes l).pc = .poll
  len : (w.nodes l).log.len = logSize
  seen : (w.nodes l).seen = ⟨1, UInt32.ofNat w.calls.length⟩
  short : w.calls.length < 2 ^ 32 - 1
  call : ∀ (id : Nat) (c : Call), w.calls[id]? = some c → TicketOk l id c
  target : ∀ (id i : Nat) (e : EntryWrite), w.entryWrites id i = some e → i ≠ l
  ordered : Ordered (phases w.calls) (w.nodes l).committed.reqId.toNat
  quorum : ∀ (id : Nat) (c : Call), w.calls[id]? = some c → 6 ≤ c.pc.stage →
    reachedQuorum c.bitMap w.size = true
  apart : ∀ (i j : Nat) (c d : Call), i ≠ j → w.calls[i]? = some c → w.calls[j]? = some d →
    c.pc.live = true → d.pc.live = true →
    c.entry + c.req.entryLen ≤ d.entry ∨ d.entry + d.req.entryLen ≤ c.entry
  held : ∀ (id : Nat) (c : Call), w.calls[id]? = some c → c.pc.live = true →
    Held (w.nodes l).log.entries c

section Memory
variable {m m' : Mem} {c : Call}

theorem Held.congr (h : Held m c)
    (hm : ∀ x, c.entry + offMsgVs ≤ x → x < c.entry + c.req.entryLen → m' x = m x) : Held m' c := by
  have hlen : 217 ≤ c.req.entryLen := by
    unfold Request.entryLen sizeofEntry
    omega
  refine ⟨(readLE_congr fun i hi => hm _ ?_ ?_).trans h.size,
    fun hs => (readVs_congr fun i hi => hm _ ?_ ?_).trans (h.stamp hs)⟩
  · show c.entry + 168 ≤ c.entry + 192 + i
    omega
  · show c.entry + 192 + i < _
    omega
  · show c.entry + 168 ≤ c.entry + 168 + i
    omega
  · show c.entry + 168 + i < _
    omega

/-- A write elsewhere. -/
theorem Held.write (h : Held m c) {a k : Nat} {src : Nat → UInt8} (hclear : c.Clear a k) :
    Held (write m a k src) c := by
  refine h.congr fun x hlo hhi => write_outside m src ?_
  rcases hclear with hbefore | hafter
  · exact .inr (by omega)
  · exact .inl (by omega)

theorem Held.move (h : Held m c) {pc : CallPc} (bitMap : Nat)
    (hstage : pc.stage ≤ c.pc.stage ∨ 2 ≤ c.pc.stage) :
    Held m { c with bitMap := bitMap, pc := pc } :=
  ⟨h.size, fun hs => h.stamp (hstage.elim (fun hle => Nat.le_trans hs hle) id)⟩

end Memory

section Components
variable {l : Nat} {w : World}

/-- Another node changes, or a part of the leader's process that does not matter here. -/
theorem Tickets.setNode (h : Tickets l w) {i : Nat} {nd : Node}
    (hsame : i = l → nd.leaderId = l ∧ nd.pc = .poll ∧ nd.log = (w.nodes l).log
      ∧ nd.seen = (w.nodes l).seen ∧ nd.committed = (w.nodes l).committed) :
    Tickets l (w.setNode i nd) := by
  rcases eq_or_ne l i with rfl | hne
  · obtain ⟨hleads, hidle, hlog, hseen, hcommitted⟩ := hsame rfl
    refine ⟨?_, ?_, ?_, ?_, h.short, h.call, h.target, ?_, h.quorum, h.apart, ?_⟩
    all_goals rw [setNode_nodes_self]
    · exact hleads
    · exact hidle
    · rw [hlog]
      exact h.len
    · rw [hseen]
      exact h.seen
    · rw [hcommitted]
      exact h.ordered
    · rw [hlog]
      exact h.held
  · refine ⟨?_, ?_, ?_, ?_, h.short, h.call, h.target, ?_, h.quorum, h.apart, ?_⟩
    all_goals rw [setNode_nodes_ne _ _ _ hne]
    · exact h.leads
    · exact h.idle
    · exact h.len
    · exact h.seen
    · exact h.ordered
    · exact h.held

/-- The leader's memory changes, away from the calls that have not returned. -/
theorem Tickets.setEntries (h : Tickets l w) {m : Mem}
    (hheld : ∀ (id : Nat) (c : Call), w.calls[id]? = some c → c.pc.live = true → Held m c) :
    Tickets l (w.setNode l ((w.nodes l).setEntries m)) := by
  refine ⟨?_, ?_, ?_, ?_, h.short, h.call, h.target, ?_, h.quorum, h.apart, ?_⟩
  all_goals rw [setNode_nodes_self]
  · exact h.leads
  · exact h.idle
  · exact h.len
  · exact h.seen
  · exact h.ordered
  · exact hheld

theorem Tickets.setEntryWrite (h : Tickets l w) (id : Nat) {i : Nat} (hi : i ≠ l) (e : EntryWrite) :
    Tickets l (w.setEntryWrite id i e) := by
  refine ⟨h.leads, h.idle, h.len, h.seen, h.short, h.call, fun k j e' he' => ?_, h.ordered, h.quorum,
    h.apart, h.held⟩
  rcases setEntryWrite_get he' with ⟨-, rfl, -⟩ | hold
  · exact hi
  · exact h.target k j e' hold

theorem Tickets.setAcks (h : Tickets l w) (acks : List AckWrite) :
    Tickets l { w with ackWrites := acks } :=
  ⟨h.leads, h.idle, h.len, h.seen, h.short, h.call, h.target, h.ordered, h.quorum, h.apart, h.held⟩

theorem Tickets.storeRecord (h : Tickets l w) (i key : Nat) (b : Buf) :
    Tickets l (w.storeRecord i key b) :=
  ⟨h.leads, h.idle, h.len, h.seen, h.short, h.call, h.target, h.ordered, h.quorum, h.apart, h.held⟩

/-- A call moves on, and `highest_committed_vs` with it. -/
theorem Tickets.setCall (h : Tickets l w) {id : Nat} {c : Call} (hc : w.calls[id]? = some c)
    (pc : CallPc) (bitMap : Nat) (committed : ViewStamp) (hlive : c.pc.live = true)
    (hheld : pc.live = true →
      Held (w.nodes l).log.entries { c with bitMap := bitMap, pc := pc })
    (hquorum : 6 ≤ pc.stage → reachedQuorum bitMap w.size = true)
    (hord : Ordered ((phases w.calls).set id pc.phase) committed.reqId.toNat) :
    Tickets l ((w.setNode l { w.nodes l with committed := committed }).setCall id
      { c with bitMap := bitMap, pc := pc }) := by
  have hlen : (w.calls.set id { c with bitMap := bitMap, pc := pc }).length = w.calls.length :=
    List.length_set
  -- a call that is live now was live before, at the same place
  have hpast : ∀ (j : Nat) (d : Call),
      (w.calls.set id { c with bitMap := bitMap, pc := pc })[j]? = some d → d.pc.live = true →
      ∃ d', w.calls[j]? = some d' ∧ d'.pc.live = true ∧ d'.entry = d.entry ∧ d'.req = d.req := by
    intro j d hd hdlive
    rcases get_set hd with ⟨rfl, rfl⟩ | ⟨-, hd⟩
    · exact ⟨c, hc, hlive, rfl, rfl⟩
    · exact ⟨d, hd, hdlive, rfl, rfl⟩
  have hnode := setNode_nodes_self w l { w.nodes l with committed := committed }
  refine ⟨?_, ?_, ?_, ?_, ?_, fun j d hd => ?_, h.target, ?_, fun j d hd hs => ?_,
    fun i j d e hij hd he hdlive helive => ?_, fun j d hd hdlive => ?_⟩
  · rw [show ((w.setNode l _).setCall id _).nodes l = _ from hnode]
    exact h.leads
  · rw [show ((w.setNode l _).setCall id _).nodes l = _ from hnode]
    exact h.idle
  · rw [show ((w.setNode l _).setCall id _).nodes l = _ from hnode]
    exact h.len
  · rw [show ((w.setNode l _).setCall id _).nodes l = _ from hnode]
    show (w.nodes l).seen = ⟨1, UInt32.ofNat (w.calls.set id _).length⟩
    rw [hlen]
    exact h.seen
  · show (w.calls.set id _).length < _
    rw [hlen]
    exact h.short
  · rcases get_set hd with ⟨rfl, rfl⟩ | ⟨-, hd⟩
    · have hold := h.call j c hc
      exact ⟨hold.owner, hold.next, hold.inside⟩
    · exact h.call j d hd
  · rw [show ((w.setNode l _).setCall id _).nodes l = _ from hnode]
    show Ordered (phases (w.calls.set id _)) _
    rw [phases_set]
    exact hord
  · rcases get_set hd with ⟨rfl, rfl⟩ | ⟨-, hd⟩
    · exact hquorum hs
    · exact h.quorum j d hd hs
  · obtain ⟨d', hd', hdl, hde, hdr⟩ := hpast i d hd hdlive
    obtain ⟨e', he', hel, hee, her⟩ := hpast j e he helive
    rw [← hde, ← hdr, ← hee, ← her]
    exact h.apart i j d' e' hij hd' he' hdl hel
  · rw [show ((w.setNode l _).setCall id _).nodes l = _ from hnode]
    rcases get_set hd with ⟨rfl, rfl⟩ | ⟨-, hd⟩
    · exact hheld hdlive
    · exact h.held j d hd hdlive

end Components

/-! ## §3. The steps of the calls. -/

section Calls
variable {l id : Nat} {w : World} {c : Call}

/-- A step that leaves `highest_committed_vs` alone. -/
theorem Tickets.moveCall (h : Tickets l w) (hc : w.calls[id]? = some c) (pc : CallPc) (bitMap : Nat)
    (hlive : c.pc.live = true)
    (hheld : pc.live = true → Held (w.nodes l).log.entries { c with bitMap := bitMap, pc := pc })
    (hquorum : 6 ≤ pc.stage → reachedQuorum bitMap w.size = true)
    (hord : Ordered ((phases w.calls).set id pc.phase) (w.nodes l).committed.reqId.toNat) :
    Tickets l (w.setCall id { c with bitMap := bitMap, pc := pc }) := by
  have hset := h.setCall hc pc bitMap (w.nodes l).committed hlive hheld hquorum hord
  rwa [show w.setNode l { w.nodes l with committed := (w.nodes l).committed } = w from
    setNode_self w l] at hset

/-- A step between two pcs that wait for the ticket. -/
theorem Tickets.moveWaiting (h : Tickets l w) (hc : w.calls[id]? = some c) (pc : CallPc)
    (bitMap : Nat) (hlive : c.pc.live = true) (hphase : c.pc.phase = .waiting)
    (hphase' : pc.phase = .waiting) (hstage : pc.stage ≤ c.pc.stage ∨ 2 ≤ c.pc.stage)
    (hquorum : 6 ≤ pc.stage → reachedQuorum bitMap w.size = true) :
    Tickets l (w.setCall id { c with bitMap := bitMap, pc := pc }) := by
  have hget := phases_get hc
  rw [hphase, ← hphase'] at hget
  exact h.moveCall hc pc bitMap hlive (fun _ => (h.held id c hc hlive).move bitMap hstage) hquorum
    (h.ordered.stay hget)

/-- A step in which a call writes into its own entry. -/
theorem Tickets.writeEntry (h : Tickets l w) (hc : w.calls[id]? = some c) (pc : CallPc)
    (bitMap : Nat) {m : Mem} (hlive : c.pc.live = true) (hphase : c.pc.phase = .waiting)
    (hphase' : pc.phase = .waiting) (hstage : c.pc.stage ≤ pc.stage) (hlt : pc.stage < 6)
    (hm : ∀ x, x < c.entry ∨ c.entry + c.req.entryLen ≤ x → m x = (w.nodes l).log.entries x)
    (hheld : Held m { c with bitMap := bitMap, pc := pc }) :
    Tickets l ((w.setNode l ((w.nodes l).setEntries m)).setCall id
      { c with bitMap := bitMap, pc := pc }) := by
  have hset : Tickets l (w.setNode l ((w.nodes l).setEntries m)) := by
    refine h.setEntries fun j d hd hdlive => ?_
    rcases eq_or_ne j id with rfl | hne
    · rw [hc] at hd
      cases hd
      exact ⟨hheld.size, fun hs => hheld.stamp (Nat.le_trans hs hstage)⟩
    · -- the entries of the other live calls lie elsewhere
      refine (h.held j d hd hdlive).congr fun x hlo hhi => hm x ?_
      have happart := h.apart j id d c hne hd hc hdlive hlive
      omega
  have hget := phases_get hc
  rw [hphase, ← hphase'] at hget
  refine hset.moveCall hc pc bitMap hlive (fun _ => ?_) (fun hs => by omega) ?_
  · rw [setNode_nodes_self]
    exact hheld
  · rw [setNode_nodes_self]
    exact h.ordered.stay hget

/-- Line 179. -/
theorem Tickets.sample (h : Tickets l w) (hc : w.calls[id]? = some c) (hpc : c.pc = .sample) :
    Tickets l ((w.setNode l ((w.nodes l).setEntries (writeVs (w.nodes l).log.entries
      (c.entry + offCanbeExed) (w.nodes l).committed))).setCall id { c with pc := .fill }) := by
  have hlive : c.pc.live = true := by rw [hpc]; rfl
  have hlen : 217 ≤ c.req.entryLen := by
    unfold Request.entryLen sizeofEntry
    omega
  refine h.writeEntry hc .fill c.bitMap hlive (by rw [hpc]; rfl) rfl (by rw [hpc]; decide)
    (by decide) (fun x hx => writeVs_outside _ _ ?_) ⟨?_, fun hs => absurd hs (show ¬ 2 ≤ 1 by decide)⟩
  · show x < c.entry + 176 ∨ c.entry + 176 + 8 ≤ x
    omega
  · refine (readLE_writeVs_disjoint _ _ (.inr ?_)).trans (h.held id c hc hlive).size
    show c.entry + 176 + 8 ≤ c.entry + 192
    omega

/-- Line 182. -/
theorem Tickets.fill (h : Tickets l w) (hc : w.calls[id]? = some c) (hpc : c.pc = .fill) :
    Tickets l ((w.setNode l ((w.nodes l).setEntries
      (fillEntry (w.nodes l).log.entries c.entry c.req c.next l))).setCall id
        { c with pc := .store }) := by
  have hlive : c.pc.live = true := by rw [hpc]; rfl
  refine h.writeEntry hc .store c.bitMap hlive (by rw [hpc]; rfl) rfl (by rw [hpc]; decide)
    (by decide) (fun x hx => fillEntry_outside _ _ _ _ _ ?_) ⟨?_, fun _ => fillEntry_msgVs _ _ _ _ _⟩
  · unfold Request.entryLen sizeofEntry at hx
    show x < c.entry + 168 ∨ c.entry + 212 + c.req.data.size ≤ x
    omega
  · exact (fillEntry_dataSize _ _ _ _ _).trans (h.held id c hc hlive).size

/-- The last byte of an entry in use is found through its size. -/
theorem Tickets.markEntry_eq (h : Tickets l w) (hc : w.calls[id]? = some c)
    (hlive : c.pc.live = true) : markEntry (w.nodes l).log.entries c.entry
      = write (w.nodes l).log.entries (c.entry + c.req.entryLen - 1) 1 fun _ => dummyEnd := by
  have hentry : logEntryLen (w.nodes l).log.entries c.entry = c.req.entryLen := by
    unfold logEntryLen
    rw [(h.held id c hc hlive).size]
    exact Nat.mod_eq_of_lt (lt_of_le_of_lt
      (Nat.le_trans (Nat.le_add_left _ _) (h.call id c hc).inside) (by decide))
  unfold markEntry
  rw [hentry]

/-- Line 202: the marker is the last byte of the entry. -/
theorem Tickets.mark (h : Tickets l w) (hc : w.calls[id]? = some c) (hpc : c.pc = .mark) :
    Tickets l ((w.setNode l ((w.nodes l).setEntries
      (markEntry (w.nodes l).log.entries c.entry))).setCall id
        { c with bitMap := 1 <<< l, pc := .post 0 }) := by
  have hlive : c.pc.live = true := by rw [hpc]; rfl
  have hold := h.held id c hc hlive
  have hlen : 217 ≤ c.req.entryLen := by
    unfold Request.entryLen sizeofEntry
    omega
  rw [h.markEntry_eq hc hlive]
  refine h.writeEntry hc (.post 0) (1 <<< l) hlive (by rw [hpc]; rfl) rfl
    (by rw [hpc]; exact (by decide : 3 ≤ 4)) (show 4 < 6 by decide)
    (fun x hx => write_outside _ _ (by omega)) ⟨?_, fun _ => ?_⟩
  · exact (readLE_write_disjoint _ _ (.inl (by
      show c.entry + 192 + 8 ≤ _
      omega))).trans hold.size
  · exact (readVs_write_disjoint _ _ (.inl (by
      show c.entry + 168 + 8 ≤ _
      omega))).trans (hold.stamp (by rw [hpc]; exact (by decide : 2 ≤ 3)))

/-- Line 229: a call leaves the spin-wait only when its number is next. -/
theorem Tickets.leaveSpin (h : Tickets l w) (hc : w.calls[id]? = some c) (hpc : c.pc = .spin)
    (htest : ¬ (readVs (w.nodes l).log.entries (c.entry + offMsgVs)).reqId
      > (w.nodes l).committed.reqId + 1) :
    Tickets l (w.setCall id { c with pc := .incRead }) := by
  have hlive : c.pc.live = true := by rw [hpc]; rfl
  have hold := h.held id c hc hlive
  have hphase := phases_get hc
  rw [hpc] at hphase
  have hlt : id < w.calls.length := (List.getElem?_eq_some_iff.mp hc).1
  have hshort := h.short
  have hle := h.ordered.le
  rw [phases, List.length_map] at hle
  -- the number it reads back is its own
  rw [hold.stamp (by rw [hpc]; exact (by decide : 2 ≤ 6)), (h.call id c hc).next] at htest
  refine h.moveCall hc .incRead c.bitMap hlive
    (fun _ => hold.move c.bitMap (.inr (by rw [hpc]; exact (by decide : 2 ≤ 6))))
    (fun _ => h.quorum id c hc (by rw [hpc]; exact Nat.le_refl 6)) (h.ordered.enter hphase ?_)
  exact le_of_not_spinning (by omega) (by omega) htest

/-- Line 230, the read. -/
theorem Tickets.incRead (h : Tickets l w) (hc : w.calls[id]? = some c) (hpc : c.pc = .incRead) :
    Tickets l (w.setCall id { c with pc := .incWrite (w.nodes l).committed.reqId }) := by
  have hlive : c.pc.live = true := by rw [hpc]; rfl
  have hphase := phases_get hc
  rw [hpc] at hphase
  exact h.moveCall hc (.incWrite _) c.bitMap hlive
    (fun _ => (h.held id c hc hlive).move c.bitMap (.inr (by rw [hpc]; exact (by decide : 2 ≤ 7))))
    (fun _ => h.quorum id c hc (by rw [hpc]; exact (by decide : 6 ≤ 7))) (h.ordered.read hphase)

/-- Line 230, the write. -/
theorem Tickets.incWrite (h : Tickets l w) (hc : w.calls[id]? = some c) {v : UInt32}
    (hpc : c.pc = .incWrite v) : Tickets l ((w.setNode l { w.nodes l with
      committed := ⟨(w.nodes l).committed.viewId, v + 1⟩ }).setCall id { c with pc := .done }) := by
  have hlive : c.pc.live = true := by rw [hpc]; rfl
  have hphase := phases_get hc
  rw [hpc] at hphase
  have hord := h.ordered.write hphase
  have hle := hord.le
  rw [List.length_set, phases, List.length_map] at hle
  have hshort := h.short
  refine h.setCall hc .done c.bitMap ⟨(w.nodes l).committed.viewId, v + 1⟩ hlive
    (fun hdone => by cases hdone)
    (fun _ => h.quorum id c hc (by rw [hpc]; exact (by decide : 6 ≤ 7))) ?_
  show Ordered _ (v + 1).toNat
  rw [toNat_succ (by omega)]
  exact hord

/-- **Every step of a call keeps the invariant.** -/
theorem Tickets.callStep (h : Tickets l w) (hc : w.calls[id]? = some c) {stored : Bool}
    {w' : World} (hstep : CallStep w id c stored w') : Tickets l w' := by
  obtain rfl : l = c.owner := (h.call id c hc).owner.symm
  -- most steps only move between pcs of stages 4 and 5
  have hloop : ∀ (pc : CallPc) (bitMap : Nat), c.pc.live = true → c.pc.phase = .waiting →
      4 ≤ c.pc.stage → pc.phase = .waiting → pc.stage < 6 →
      Tickets c.owner (w.setCall id { c with bitMap := bitMap, pc := pc }) :=
    fun pc bitMap hlive hphase hstage hphase' hlt => h.moveWaiting hc pc bitMap hlive hphase hphase'
      (.inr (by omega)) fun hs => absurd hs (by omega)
  cases hstep with
  | sample hpc => exact h.sample hc hpc
  | fill hpc => exact h.fill hc hpc
  | store hpc =>
      exact (h.storeRecord _ _ _).moveWaiting hc .mark c.bitMap (by rw [hpc]; rfl) (by rw [hpc]; rfl)
        rfl (.inr (by rw [hpc]; exact Nat.le_refl 2)) fun hs => absurd hs (by decide)
  | fail hpc =>
      exact h.moveWaiting hc .failed c.bitMap (by rw [hpc]; rfl) (by rw [hpc]; rfl)
        rfl (.inr (by rw [hpc]; exact Nat.le_refl 2)) fun hs => absurd hs (by decide)
  | mark hpc => exact h.mark hc hpc
  | skip hpc hi hno =>
      exact hloop _ c.bitMap (by rw [hpc]; rfl) (by rw [hpc]; rfl) (by rw [hpc]; exact Nat.le_refl 4)
        rfl (show 4 < 6 by decide)
  | post hpc hi hne hconn =>
      exact (h.setEntryWrite id hne _).moveWaiting hc _ c.bitMap (by rw [hpc]; rfl) (by rw [hpc]; rfl)
        rfl (.inr (by rw [hpc]; exact (by decide : 2 ≤ 4))) fun hs => absurd hs (show ¬ 6 ≤ 4 by decide)
  | posted hpc hi =>
      exact hloop _ c.bitMap (by rw [hpc]; rfl) (by rw [hpc]; rfl) (by rw [hpc]; exact Nat.le_refl 4)
        rfl (show 5 < 6 by decide)
  | hit hpc hi hvs =>
      exact hloop _ c.bitMap (by rw [hpc]; rfl) (by rw [hpc]; rfl) (by rw [hpc]; exact Nat.le_succ 4)
        rfl (show 5 < 6 by decide)
  | miss hpc hi hvs =>
      exact hloop _ c.bitMap (by rw [hpc]; rfl) (by rw [hpc]; rfl) (by rw [hpc]; exact Nat.le_succ 4)
        rfl (show 5 < 6 by decide)
  | scanned hpc hi =>
      exact hloop _ c.bitMap (by rw [hpc]; rfl) (by rw [hpc]; rfl) (by rw [hpc]; exact Nat.le_succ 4)
        rfl (show 5 < 6 by decide)
  | ackId hpc hlt hid =>
      exact hloop _ _ (by rw [hpc]; rfl) (by rw [hpc]; rfl) (by rw [hpc]; exact Nat.le_succ 4)
        rfl (show 5 < 6 by decide)
  | again hpc hq =>
      exact hloop _ c.bitMap (by rw [hpc]; rfl) (by rw [hpc]; rfl) (by rw [hpc]; exact Nat.le_succ 4)
        rfl (show 5 < 6 by decide)
  | quorum hpc hq =>
      exact h.moveWaiting hc .spin c.bitMap (by rw [hpc]; rfl) (by rw [hpc]; rfl) rfl
        (.inr (by rw [hpc]; exact (by decide : 2 ≤ 5))) fun _ => hq
  | spin hpc htest => exact h
  | leaveSpin hpc htest => exact h.leaveSpin hc hpc htest
  | incRead hpc => exact h.incRead hc hpc
  | incWrite hpc => exact h.incWrite hc hpc

end Calls

/-! ## §4. All steps. -/

section Steps
variable {n l : Nat} {w w' : World} {a : Action}

/-- The next stamp of a leader that has taken `k` requests. -/
theorem getNextViewStamp_eq {nd : Node} {k : Nat} (h : nd.seen = ⟨1, UInt32.ofNat k⟩) :
    getNextViewStamp nd = stampOf k := by
  unfold getNextViewStamp stampOf
  rw [h]
  show ViewStamp.mk 1 (UInt32.ofNat k + 1) = _
  rw [ofNat_succ]

theorem alloc_seen {nd : Node} {k : Nat} (h : nd.seen = ⟨1, UInt32.ofNat k⟩) (q : Request) :
    (nd.alloc q).seen = ⟨1, UInt32.ofNat (k + 1)⟩ := by
  show ViewStamp.mk nd.seen.viewId (getNextViewStamp nd).reqId = _
  rw [getNextViewStamp_eq h, h]
  rfl

/-- Lines 130–177, with an entry clear of those in use. -/
theorem Tickets.submit (h : Tickets l w) {q : Request} (hshort : w.calls.length + 1 < 2 ^ 32 - 1)
    (hfit : (allocEntry (w.nodes l).log q.data.size).1 + sizeofEntry + (q.data.size + 1)
      ≤ (w.nodes l).log.len) (hkept : EntriesKept l w (.submit l q)) :
    Tickets l { w.setNode l ((w.nodes l).alloc q) with
      calls := w.calls ++ [(w.nodes l).newCall l q] } := by
  have hnode : ∀ calls : List Call, ({ w.setNode l ((w.nodes l).alloc q) with
      calls := calls } : World).nodes l = (w.nodes l).alloc q := fun _ => setNode_nodes_self _ _ _
  have hlen : (w.calls ++ [(w.nodes l).newCall l q]).length = w.calls.length + 1 := List.length_append
  rw [h.len] at hfit
  -- the new entry is clear of those in use
  have hapart : ∀ c ∈ w.calls, c.pc.live = true →
      logAddNewEntry (w.nodes l).log + q.entryLen ≤ c.entry
        ∨ c.entry + c.req.entryLen ≤ logAddNewEntry (w.nodes l).log := hkept
  have hin : logAddNewEntry (w.nodes l).log + q.entryLen ≤ logSize := by
    unfold Request.entryLen
    rw [← Nat.add_assoc]
    exact hfit
  refine ⟨?_, ?_, ?_, ?_, ?_, fun id c hc => ?_, h.target, ?_, fun id c hc hs => ?_,
    fun i j c d hij hc hd hcl hdl => ?_, fun id c hc hlive => ?_⟩
  · rw [hnode]
    exact h.leads
  · rw [hnode]
    exact h.idle
  · rw [hnode, alloc_log, allocEntry_len]
    exact h.len
  · rw [hnode, hlen]
    exact alloc_seen h.seen q
  · rw [hlen]
    exact hshort
  · rcases get_concat hc with ⟨-, hold⟩ | ⟨rfl, rfl⟩
    · exact h.call id c hold
    · exact ⟨rfl, getNextViewStamp_eq h.seen, hin⟩
  · rw [hnode]
    show Ordered (phases (w.calls ++ [_])) (w.nodes l).committed.reqId.toNat
    rw [phases_append]
    exact h.ordered.append
  · rcases get_concat hc with ⟨-, hold⟩ | ⟨-, rfl⟩
    · exact h.quorum id c hold hs
    · exact absurd hs (show ¬ 6 ≤ 0 by decide)
  · rcases get_concat hc with ⟨-, hold⟩ | ⟨rfl, rfl⟩
    · rcases get_concat hd with ⟨-, hold'⟩ | ⟨-, rfl⟩
      · exact h.apart i j c d hij hold hold' hcl hdl
      · exact (hapart c (List.mem_of_getElem? hold) hcl).symm
    · rcases get_concat hd with ⟨-, hold'⟩ | ⟨rfl, -⟩
      · exact hapart d (List.mem_of_getElem? hold') hdl
      · exact absurd rfl hij
  · rw [hnode, alloc_log, allocEntry_entries]
    rcases get_concat hc with ⟨-, hold⟩ | ⟨-, rfl⟩
    · refine (h.held id c hold hlive).write ?_
      rcases hapart c (List.mem_of_getElem? hold) hlive with hbefore | hafter
      · refine .inl ?_
        unfold Request.entryLen sizeofEntry at hbefore
        show logAddNewEntry (w.nodes l).log + 192 + 8 ≤ c.entry + 168
        omega
      · exact .inr (Nat.le_trans hafter (Nat.le_add_right _ _))
    · refine ⟨readLE_writeLE_of_lt _ ?_, fun hs => absurd hs (show ¬ 2 ≤ 0 by decide)⟩
      have hsize : q.data.size + 1 ≤ logSize := by
        unfold Request.entryLen at hin
        omega
      exact lt_of_le_of_lt hsize (by decide)

/-- The leader's own replica thread does nothing. -/
theorem Tickets.replicaStep (h : Tickets l w) {i hash : Nat} {stored : Bool}
    (hstep : ReplicaStep w i stored hash w') : Tickets l w' := by
  have hne : (w.nodes i).pc ≠ .poll ∨ (w.nodes i).leaderId ≠ i → i ≠ l := by
    rintro hdoes rfl
    exact hdoes.elim (fun hpc => hpc h.idle) fun hlead => hlead h.leads
  cases hstep with
  | leader => exact h
  | poll _ hlead => exact h.setNode fun heq => absurd heq (hne (.inr hlead))
  | accept hpc =>
      exact (h.storeRecord _ _ _).setNode fun heq => absurd heq (hne (.inl (by rw [hpc]; nofun)))
  | ack hpc =>
      exact (h.setNode fun heq => absurd heq (hne (.inl (by rw [hpc]; nofun)))).setAcks _
  | measure hpc | marker hpc | acceptUnstored hpc | unconnected hpc | commit hpc | apply hpc | applied hpc =>
      exact h.setNode fun heq => absurd heq (hne (.inl (by rw [hpc]; nofun)))

theorem Tickets.preserved (h : Tickets l w) (hok : OneProcess l w a) (hkept : EntriesKept l w a)
    (hstep : step w a = some w') : Tickets l w' := by
  cases step_cases hstep with
  | start => exact h.setNode fun heq => absurd heq hok
  | joinReply => exact h.setNode fun heq => absurd heq hok
  | crash | connect | destroy =>
      refine h.setNode fun heq => ?_
      subst heq
      exact ⟨h.leads, h.idle, rfl, rfl, rfl⟩
  | relaunch _ hlead =>
      refine h.setNode fun heq => ?_
      subst heq
      exact absurd h.leads hlead
  | submit _ _ _ hfit =>
      obtain ⟨rfl, hshort⟩ := hok
      exact h.submit hshort hfit hkept
  | call hc _ _ hcall => exact h.callStep hc hcall
  | replica _ hrep => exact h.replicaStep hrep
  | deliverEntry he =>
      have hne := h.target _ _ _ he
      exact (h.setEntryWrite _ hne _).setNode fun heq => absurd heq hne
  | @deliverAck k n e he =>
      have hacks := h.setAcks (w.ackWrites.set k { e with visible := e.visible + n })
      rcases eq_or_ne e.dst l with hdst | hne
      · subst hdst
        exact hacks.setEntries fun id c hc hlive =>
          (h.held id c hc hlive).write (hkept e he rfl c (List.mem_of_getElem? hc) hlive)
      · exact hacks.setNode fun heq => absurd heq hne

theorem Tickets.booted (hl : l < n) : Tickets l (World.booted n l) where
  leads := by rw [booted_member hl]
  idle := by rw [booted_member hl]; rfl
  len := by rw [booted_member hl]; rfl
  seen := by rw [booted_member hl]; rfl
  short := show 0 < 2 ^ 32 - 1 by decide
  call id c hc := by cases hc
  target id i e he := by cases he
  ordered := by rw [booted_member hl]; exact Ordered.nil
  quorum id c hc := by cases hc
  apart i j c d hij hc := by cases hc
  held id c hc := by cases hc

theorem CallPc.committing_inside (pc : CallPc) : pc.committing = pc.phase.inside := by
  cases pc <;> rfl

theorem Tickets.inOrder (h : Tickets l w) : CommitOrder l w := by
  have hnumber : ∀ (id : Nat) (c : Call), w.calls[id]? = some c →
      c.next.reqId.toNat = id + 1 := by
    intro id c hc
    have hlt : id < w.calls.length := (List.getElem?_eq_some_iff.mp hc).1
    have hshort := h.short
    rw [(h.call id c hc).next]
    exact stampOf_reqId (by omega)
  refine ⟨hnumber, fun c hmem => ?_, h.ordered.count_finished, fun c hmem hdone => ?_,
    fun i j c d hc hd hci hdi => ?_⟩
  · obtain ⟨id, hc⟩ := List.mem_iff_getElem?.mp hmem
    rw [hnumber id c hc, ← CallPc.phase_finished]
    exact h.ordered.finished id _ (phases_get hc)
  · obtain ⟨id, hc⟩ := List.mem_iff_getElem?.mp hmem
    exact h.quorum id c hc (by rw [hdone]; decide)
  · rw [CallPc.committing_inside] at hci hdi
    exact h.ordered.exclusive (phases_get hc) (phases_get hd) hci hdi

/-- **The commits are in order in every run that leaves the entries of calls in
progress alone.** -/
theorem commitOrder (hl : l < n)
    (h : Reaches step (fun w a => OneProcess l w a ∧ EntriesKept l w a) (World.booted n l) w) :
    CommitOrder l w :=
  (h.invariant (I := Tickets l) (Tickets.booted hl)
    fun _ _ _ hinv hok hs => hinv.preserved hok.1 hok.2 hs).inOrder

end Steps

theorem commitOrder_twoRequests :
    ∃ w, Reaches step (fun w a => OneProcess 0 w a ∧ EntriesKept 0 w a) (World.booted 2 0) w
      ∧ (w.nodes 0).committed.reqId.toNat = 1 ∧ CommitOrder 0 w := by
  obtain ⟨w, hrun, hw⟩ := exists_reaches_of_execOk step
    (fun w a => OneProcess 0 w a ∧ EntriesKept 0 w a) (World.booted 2 0) twoRequests
    (fun w => (w.nodes 0).committed.reqId.toNat) (v := 1) (by decide +kernel)
  exact ⟨w, hrun, hw, commitOrder (by decide) hrun⟩

/-- Fills the log up to its end, behind two requests without payload. -/
def restOfLog : Request := ⟨.send, ⟨logSize - 651, fun _ => 0⟩, ⟨1, 1⟩⟩

/-- Payload over the whole header of the second entry. -/
def zeros : Request := ⟨.send, ⟨200, fun _ => 0⟩, ⟨1, 1⟩⟩

/-- Request 2 has its quorum and waits for request 1, whose ack is late, when
request 4 goes back to the start of the log. -/
def overwritten : List Action :=
  [.submit 0 connectReq, .submit 0 connectReq] ++ callSteps 0 7 ++ callSteps 1 7
    ++ [.deliverEntry 0 1 217, .deliverEntry 1 1 217] ++ replicaSteps 1 12 ++ [.deliverAck 1 24]
    ++ callSteps 1 10 ++ [.submit 0 restOfLog, .submit 0 zeros] ++ callSteps 3 2 ++ callSteps 1 3

/-- The commit point, and the second request: its number, and whether it has incremented it. -/
def secondCall (w : World) : Nat × Option (Nat × Bool) :=
  ((w.nodes 0).committed.reqId.toNat,
    w.calls[1]?.map fun c => (c.next.reqId.toNat, decide (c.pc = .done)))

/-- Request 2 reads the zeros as its own number, and commits before request 1. -/
theorem commitOrder_fails :
    ¬ ∀ (n l : Nat) (w : World), l < n → Reaches step (OneProcess l) (World.booted n l) w →
      CommitOrder l w := by
  intro hall
  obtain ⟨w, hrun, hw⟩ := exists_reaches_of_execOk step (OneProcess 0) (World.booted 2 0)
    overwritten secondCall (v := (1, some (2, true))) (by decide +kernel)
  have hcommitted : (w.nodes 0).committed.reqId.toNat = 1 := congrArg Prod.fst hw
  obtain ⟨c, hc, hpair⟩ := Option.map_eq_some_iff.mp (congrArg Prod.snd hw)
  have hdone : c.pc = .done := of_decide_eq_true (congrArg Prod.snd hpair)
  have hnumber : c.next.reqId.toNat = 2 := congrArg Prod.fst hpair
  have hle := ((hall 2 0 w (by decide) hrun).exact c (List.mem_of_getElem? hc)).mp hdone
  omega

end RdmaPaxos
