/-
  RdmaPaxos.Consensus.Delivery
  ────────────────────────────
  **WHAT HAS BEEN SENT, AND WHAT OF IT HAS ARRIVED.**

  The invariants so far say that nothing is in a log that was not sent.  These say
  that nothing is missing: under one fixed leader and with every node connected,

    • `Linked` — the connections stay as they were set up,
    • `Sent`   — a call past server `i` has posted its entry to it,
    • `Acked`  — a follower past the ack of an entry has posted it,
    • `Arrived` — the visible bytes of an ack are in its slot.

  Nothing is said about when posted bytes become visible.
-/
import RdmaPaxos.Consensus.Quorum

namespace RdmaPaxos

open RdmaPaxos.ByteMemory RdmaPaxos.Ticket RdmaPaxos.Run

/-! ## §1. Connections. -/

/-- Everybody is up, follows `l`, and is connected to everybody else's present log. -/
structure Linked (n l : Nat) (w : World) : Prop where
  up : ∀ i < n, (w.nodes i).up = true
  follows : ∀ i < n, (w.nodes i).leaderId = l
  conn : ∀ i < n, ∀ j < n, j ≠ i → (w.nodes i).conn j = some (w.nodes j).region

section Linked
variable {n l : Nat} {w w' : World} {a : Action}

theorem linked_booted (n l : Nat) : Linked n l (World.booted n l) where
  up i hi := by rw [booted_member hi]; rfl
  follows i hi := by rw [booted_member hi]
  conn i hi j hj hne := by
    rw [booted_member hi, booted_member hj]
    exact if_pos ⟨hj, hne⟩

/-- No step of such a run touches a connection. -/
theorem FixedLeader.same (hok : FixedLeader l w a) (hstep : step w a = some w') (j : Nat) :
    (w.nodes j).Same (w'.nodes j) := by
  cases step_cases hstep with
  | start | crash | joinReply | connect | destroy | relaunch => exact absurd hok id
  | submit => exact same_setNode (w := w) (.alloc _ _) j
  | call hc hup hregion hcall => exact hcall.same j
  | replica hup hrep => exact hrep.same j
  | @deliverEntry id i k e => exact same_setNode (w := w.setEntryWrite id i _) (.setEntries _ _) j
  | @deliverAck a k e => exact same_setNode (w := w.setAckWrite a _) (.setEntries _ _) j

theorem Linked.step (h : Linked n l w) (hok : FixedLeader l w a) (hstep : step w a = some w') :
    Linked n l w' where
  up i hi := (hok.same hstep i).up.trans (h.up i hi)
  follows i hi := (hok.same hstep i).leaderId.trans (h.follows i hi)
  conn i hi j hj hne := by
    rw [(hok.same hstep i).conn, (hok.same hstep j).region]
    exact h.conn i hi j hj hne

end Linked

/-! ## §2. Entries. -/

/-- A call past server `i` has posted its entry to it; no call has failed, and a call
past its marker has counted the leader. -/
structure Sent (n l : Nat) (w : World) : Prop where
  posted : ∀ (id : Nat) (c : Call) (i : Nat), w.calls[id]? = some c → i < n → i ≠ l →
    c.pc.posted i = true → ∃ e, w.writesTo i id = some e ∧ e.region = (w.nodes i).region
  unfailed : ∀ (id : Nat) (c : Call), w.calls[id]? = some c → c.pc ≠ .failed
  counted : ∀ (id : Nat) (c : Call), w.calls[id]? = some c → 4 ≤ c.pc.stage →
    c.bitMap.testBit l = true

section Sent
variable {n l id : Nat} {w w' : World} {c c' : Call}

/-- More bytes of a write become visible. -/
theorem extends_setEntryWrite {i : Nat} {e e' : EntryWrite} (he : w.entryWrites id i = some e)
    (hsame : e'.region = e.region ∧ e'.len = e.len ∧ e'.byte = e.byte) (hle : e.visible ≤ e'.visible)
    (j : Nat) : Extends (w.writesTo j) ((w.setEntryWrite id i e').writesTo j) := by
  intro k d hd
  rcases eq_or_ne j i with rfl | hj
  · rw [setEntryWrite_writesTo]
    rcases eq_or_ne k id with rfl | hk
    · obtain rfl := Option.some.inj (he.symm.trans hd)
      exact ⟨e', Function.update_self .., hsame.1, hsame.2.1, hsame.2.2, hle⟩
    · exact ⟨d, by rw [Function.update_of_ne hk]; exact hd, rfl, rfl, rfl, Nat.le_refl _⟩
  · exact ⟨d, by rw [setEntryWrite_writesTo_ne _ _ _ hj]; exact hd, rfl, rfl, rfl, Nat.le_refl _⟩

/-- The writes to a server are all still there, for the same logs. -/
theorem Sent.frame (h : Sent n l w) (hregion : ∀ i, (w'.nodes i).region = (w.nodes i).region)
    (hwrites : ∀ i, Extends (w.writesTo i) (w'.writesTo i)) (hcalls : w'.calls = w.calls) :
    Sent n l w' where
  posted id c i hc hi hne hp := by
    rw [hcalls] at hc
    obtain ⟨e, he, hreg⟩ := h.posted id c i hc hi hne hp
    obtain ⟨e', he', hreg', -⟩ := hwrites i id e he
    exact ⟨e', he', by rw [hreg', hreg, hregion]⟩
  unfailed id c hc := h.unfailed id c (hcalls ▸ hc)
  counted id c hc := h.counted id c (hcalls ▸ hc)

/-- Call `id` moves on, at most by posting its entry to another server. -/
theorem Sent.move (h : Sent n l w) (hregion : ∀ i, (w'.nodes i).region = (w.nodes i).region)
    (hcalls : w'.calls = w.calls.set id c')
    (hold : ∀ i k, k ≠ id → w'.writesTo i k = w.writesTo i k)
    (hposted : ∀ i, i < n → i ≠ l → c'.pc.posted i = true →
      ∃ e, w'.writesTo i id = some e ∧ e.region = (w.nodes i).region)
    (hfailed : c'.pc ≠ .failed) (hcounted : 4 ≤ c'.pc.stage → c'.bitMap.testBit l = true) :
    Sent n l w' := by
  refine ⟨fun k d i hd hi hne hp => ?_, fun k d hd => ?_, fun k d hd => ?_⟩
  all_goals
    rw [hcalls] at hd
    rcases get_set hd with ⟨rfl, rfl⟩ | ⟨hk, hd⟩
  · rw [hregion]
    exact hposted i hi hne hp
  · rw [hregion, hold i k hk]
    exact h.posted k d i hd hi hne hp
  · exact hfailed
  · exact h.unfailed k d hd
  · exact hcounted
  · exact h.counted k d hd

/-- Call `id` moves on without posting. -/
theorem Sent.stay (h : Sent n l w) (hc : w.calls[id]? = some c)
    (hregion : ∀ i, (w'.nodes i).region = (w.nodes i).region)
    (hcalls : w'.calls = w.calls.set id c') (hwrites : w'.entryWrites = w.entryWrites)
    (hposted : ∀ i, i < n → i ≠ l → c'.pc.posted i = true → c.pc.posted i = true)
    (hfailed : c'.pc ≠ .failed) (hcounted : 4 ≤ c'.pc.stage → c'.bitMap.testBit l = true) :
    Sent n l w' := by
  have hto : ∀ i, w'.writesTo i = w.writesTo i := fun i => by
    unfold World.writesTo
    rw [hwrites]
  refine h.move hregion hcalls (fun i k _ => by rw [hto]) (fun i hi hne hp => ?_) hfailed hcounted
  rw [hto]
  exact h.posted id c i hc hi hne (hposted i hi hne hp)

theorem Sent.callStep (h : Sent n l w) (hlink : Linked n l w) (hsize : w.size = n)
    (howner : c.owner = l) (hl : l < n) (hc : w.calls[id]? = some c)
    (hstep : CallStep w id c true w') : Sent n l w' := by
  have hregion : ∀ i, (w'.nodes i).region = (w.nodes i).region := fun i => (hstep.same i).region
  have hbit := h.counted id c hc
  have hlate : ∀ {pc : CallPc}, 5 ≤ c.pc.stage → (∀ j, pc ≠ .post j) →
      ∀ i, i < n → i ≠ l → pc.posted i = true → c.pc.posted i = true := by
    intro pc h5 _ i _ _ _
    cases hpc : c.pc with
    | post j => rw [hpc] at h5; exact absurd h5 (by decide : ¬ 5 ≤ 4)
    | _ =>
        rw [hpc] at h5
        exact decide_eq_true h5
  cases hstep with
  | sample hpc | fill hpc | store hpc =>
      refine h.stay hc hregion rfl rfl (fun i _ _ hp => ?_) nofun ?_
      · exact absurd hp (by simp [CallPc.posted, CallPc.stage])
      · exact fun h4 => absurd h4 (by simp [CallPc.stage])
  | mark hpc =>
      refine h.stay hc hregion rfl rfl (fun i _ _ hp => ?_) nofun fun _ => ?_
      · have hlt : i < 0 := of_decide_eq_true hp
        exact absurd hlt (Nat.not_lt_zero i)
      · show (1 <<< c.owner).testBit l = true
        rw [Nat.one_shiftLeft, Nat.testBit_two_pow, howner]
        exact decide_eq_true rfl
  | @skip _ j hpc hj hno =>
      refine h.stay hc hregion rfl rfl (fun i hi hne hp => ?_) nofun
        fun _ => hbit (by rw [hpc]; exact Nat.le_refl 4)
      have hlt : i < j + 1 := of_decide_eq_true hp
      rw [hpc]
      -- server `j` is connected, or the leader itself
      have hij : i ≠ j := by
        rintro rfl
        rcases hno with heq | hnone
        · exact hne (heq.trans howner)
        · rw [howner, hlink.conn l hl i hi hne] at hnone
          cases hnone
      exact decide_eq_true (by omega)
  | @post _ j region hpc hj hown hconn =>
      refine h.move hregion rfl (fun i k hk => ?_) (fun i hi hne hp => ?_) nofun
        fun _ => hbit (by rw [hpc]; exact Nat.le_refl 4)
      · show (w.setEntryWrite id j _).writesTo i k = _
        rcases eq_or_ne i j with rfl | hij
        · rw [setEntryWrite_writesTo, Function.update_of_ne hk]
        · rw [setEntryWrite_writesTo_ne _ _ _ hij]
      · have hlt : i < j + 1 := of_decide_eq_true hp
        show ∃ e, (w.setEntryWrite id j _).writesTo i id = some e ∧ _
        rcases eq_or_ne i j with rfl | hij
        · rw [setEntryWrite_writesTo, Function.update_self]
          refine ⟨_, rfl, ?_⟩
          rw [howner, hlink.conn l hl i hi hne] at hconn
          exact (Option.some.inj hconn).symm
        · rw [setEntryWrite_writesTo_ne _ _ _ hij]
          exact h.posted id c i hc hi hne (by rw [hpc]; exact decide_eq_true (by omega))
  | @posted _ j hpc hj =>
      refine h.stay hc hregion rfl rfl (fun i hi _ _ => ?_) nofun
        fun _ => hbit (by rw [hpc]; exact Nat.le_refl 4)
      rw [hpc]
      exact decide_eq_true (by omega)
  | ackId hpc hlt hid =>
      refine h.stay hc hregion rfl rfl (hlate (by rw [hpc]; exact Nat.le_refl 5) nofun) nofun
        fun _ => ?_
      show (c.bitMap ||| _).testBit l = true
      rw [Nat.testBit_or, hbit (by rw [hpc]; exact (by decide : 4 ≤ 5))]
      rfl
  | spin hpc htest => exact h
  | hit hpc | miss hpc | scanned hpc | quorum hpc | again hpc | leaveSpin hpc | incRead hpc
  | incWrite hpc =>
      exact h.stay hc hregion rfl rfl (hlate (by rw [hpc]; simp [CallPc.stage]) nofun) nofun
        fun _ => hbit (by rw [hpc]; simp [CallPc.stage])

end Sent

/-! ## §3. Acks. -/

/-- A follower past the ack of an entry has posted it. -/
structure Acked (n l : Nat) (w : World) : Prop where
  voted : ∀ i < n, i ≠ l → ∀ k < (w.nodes i).accepted.length,
    (∃ entry, (w.nodes i).pc = .ack entry ∧ k + 1 = (w.nodes i).accepted.length)
      ∨ Voted w.ackWrites i k

section Acked
variable {T : Request → Prop} {n l i : Nat} {w w' : World}

/-- The acks are all still there, and so is what the followers have accepted. -/
theorem Acked.frame (h : Acked n l w)
    (hnode : ∀ j, (w'.nodes j).accepted = (w.nodes j).accepted ∧ (w'.nodes j).pc = (w.nodes j).pc)
    (hacks : ∀ e ∈ w.ackWrites, ∃ e' ∈ w'.ackWrites, e'.src = e.src ∧ e'.byte = e.byte) :
    Acked n l w' where
  voted j hj hne k hk := by
    rw [(hnode j).1] at hk ⊢
    rw [(hnode j).2]
    exact (h.voted j hj hne k hk).imp_right fun hv => hv.mono hacks

/-- Follower `i` moves on, and posts an ack if it was at one. -/
theorem Acked.move (h : Acked n l w)
    (hnode : ∀ j, j ≠ i → w'.nodes j = w.nodes j)
    (hacks : ∀ e ∈ w.ackWrites, e ∈ w'.ackWrites)
    (hvoted : i < n → i ≠ l → ∀ k < (w'.nodes i).accepted.length,
      (∃ entry, (w'.nodes i).pc = .ack entry ∧ k + 1 = (w'.nodes i).accepted.length)
        ∨ Voted w'.ackWrites i k) : Acked n l w' where
  voted j hj hne k hk := by
    rcases eq_or_ne j i with rfl | hji
    · exact hvoted hj hne k hk
    · rw [hnode j hji] at hk ⊢
      exact (h.voted j hj hne k hk).imp_right fun hv =>
        hv.mono fun e he => ⟨e, hacks e he, rfl, rfl⟩

/-- The entry a follower acks names the leader. -/
theorem Inv.ack_leader (h : Inv T l (w.nodes l).region w) {entry : Nat}
    (hpc : (w.nodes i).pc = .ack entry) :
    i ≠ l ∧ readLE (w.nodes i).log.entries (entry + offNodeId) 4 = l := by
  obtain ⟨k, -, hentry, hseen⟩ := h.worksOn (.inl hpc)
  have hne := h.seen_ne hseen
  obtain ⟨q, -, -, hbytes, -⟩ := (h.replica i fun hb => hne hb.1).mem.headBytes (h.writeBytes i) hseen
  have hid := hbytes.nodeId
  rw [readLE_entryAt, ← hentry] at hid
  exact ⟨hne, hid⟩

theorem Acked.replicaStep (h : Acked n l w) (hinv : Inv T l (w.nodes l).region w)
    (hlink : Linked n l w) (hl : l < n) {hash : Nat} (hi : i < n)
    (hstep : ReplicaStep w i true hash w') : Acked n l w' := by
  have hother : ∀ nd j, j ≠ i → (w.setNode i nd).nodes j = w.nodes j := fun nd j hj =>
    setNode_nodes_ne _ _ _ hj
  -- outside the ack, all of a follower's acks are posted
  have hpast : (∀ entry, (w.nodes i).pc ≠ .ack entry) → i ≠ l →
      ∀ k < (w.nodes i).accepted.length, Voted w.ackWrites i k := by
    intro hpc hne k hk
    exact (h.voted i hi hne k hk).resolve_left fun ⟨entry, heq, _⟩ => hpc entry heq
  cases hstep with
  | leader => exact h
  | @accept _ entry hpc =>
      refine h.move (fun j hj => setNode_nodes_ne _ _ _ hj) (fun _ he => he) fun _ hne k hk => ?_
      rw [setNode_nodes_self] at hk ⊢
      have hlen : ((w.nodes i).accept i entry hash).accepted.length
          = (w.nodes i).accepted.length + 1 := List.length_append
      rcases Nat.lt_or_ge k (w.nodes i).accepted.length with hlt | hge
      · exact .inr (hpast (by rw [hpc]; nofun) hne k hlt)
      · exact .inl ⟨entry, rfl, by omega⟩
  | @unconnected _ _ entry hpc hconn hlt =>
      -- the follower is connected to the leader that wrote the entry
      obtain ⟨hne, hid⟩ := hinv.ack_leader hpc
      rw [hid, hlink.conn i hi l hl (Ne.symm hne)] at hconn
      cases hconn
  | @ack _ _ entry leader region hpc hleader hlt hconn =>
      have hkeep : ∀ e ∈ w.ackWrites,
          e ∈ w.ackWrites ++ [(w.nodes i).ackWrite i entry leader region] :=
        fun e he => List.mem_append_left _ he
      refine h.move (hother _) hkeep fun _ hne k hk => ?_
      have hnode := setNode_nodes_self w i { w.nodes i with pc := .commit entry }
      have hk' : k < (w.nodes i).accepted.length := by
        have heq := congrArg (fun nd : Node => nd.accepted.length) hnode
        exact hk.trans_eq heq
      right
      rcases h.voted i hi hne k hk' with ⟨entry', heq, hlast⟩ | hv
      · -- the ack posted now
        refine ⟨_, List.mem_append_right _ (List.mem_singleton.mpr rfl), rfl, ?_⟩
        have hreply := ((hinv.replica i fun hb => hne hb.1).reply entry hpc).1
        rw [show stampOf k = stampOf ((w.nodes i).accepted.length - 1) by rw [← hlast]; rfl,
          ← hreply]
        exact readVs_congr fun j _ => by
          show (w.nodes i).log.entries (entry + acceptAckSize * i + (0 + j)) = _
          rw [Nat.zero_add]
      · exact hv.mono fun e he => ⟨e, hkeep e he, rfl, rfl⟩
  | poll hpc | measure hpc | marker hpc | commit hpc | apply hpc | applied hpc =>
      refine h.move (hother _) (fun _ he => he) fun _ hne k hk => ?_
      rw [setNode_nodes_self] at hk ⊢
      exact .inr (hpast (by rw [hpc]; nofun) hne k hk)

end Acked

/-! ## §4. The ack slots. -/

/-- Acks are addressed to the leader's log, and the visible bytes of their stamp and
node id are in it. -/
structure Arrived (l : Nat) (w : World) : Prop where
  region : ∀ e ∈ w.ackWrites, e.region = (w.nodes l).region
  byte : ∀ e ∈ w.ackWrites, ∀ t < 12, t < e.visible →
    (w.nodes l).log.entries (e.off + t) = e.byte t

section Arrived
variable {T : Request → Prop} {n l id : Nat} {w w' : World} {c : Call}

/-- A call writes into its own entry, behind the ack slots. -/
theorem CallStep.outside (h : Inv T l (w.nodes l).region w) {stored : Bool}
    (hc : w.calls[id]? = some c) (hstep : CallStep w id c stored w') {x : Nat}
    (hx : x < c.entry + offMsgVs ∨ c.entry + c.req.entryLen ≤ x) :
    (w'.nodes l).log.entries x = (w.nodes l).log.entries x := by
  have hcall := h.call id c hc
  obtain rfl : l = c.owner := hcall.owner.symm
  have hlen : c.req.entryLen = 217 + c.req.data.size := by
    unfold Request.entryLen sizeofEntry
    omega
  have hbytes := (h.leader rfl).mem id c hc
  rw [show startOf (w.calls.map Call.req) id = c.entry from hcall.entry.symm] at hbytes
  have hin := hcall.inside
  unfold offMsgVs at hx
  have hset : ∀ m : Mem, m x = (w.nodes c.owner).log.entries x →
      ((w.setNode c.owner ((w.nodes c.owner).setEntries m)).nodes c.owner).log.entries x
        = (w.nodes c.owner).log.entries x := fun m hm => by
    rw [setNode_nodes_self]
    exact hm
  cases hstep with
  | sample =>
      refine hset _ (writeVs_outside _ _ ?_)
      unfold offCanbeExed
      omega
  | fill =>
      refine hset _ (fillEntry_outside _ _ _ _ _ ?_)
      unfold offMsgVs offData
      omega
  | mark =>
      refine hset _ ?_
      unfold markEntry
      rw [hbytes.logEntryLen_eq (by omega)]
      exact write_outside _ _ (by omega)
  | incWrite =>
      exact setNode_field (w := w) (fun nd : Node => nd.log.entries x) fun _ => rfl
  | _ => rfl

/-- A byte of an ack slot, as the call finds and leaves it. -/
theorem AckOk.callStep {e : AckWrite} (he : AckOk l w.requests e) (h : Inv T l (w.nodes l).region w)
    {stored : Bool} (hc : w.calls[id]? = some c) (hstep : CallStep w id c stored w') {t : Nat}
    (ht : t < acceptAckSize) :
    (w'.nodes l).log.entries (e.off + t) = (w.nodes l).log.entries (e.off + t) := by
  refine hstep.outside h hc ?_
  obtain ⟨k, q, hq, hoff, -⟩ := he.slot
  have hsrc := he.src
  have hlen : offMsgVs ≤ q.entryLen := by unfold Request.entryLen sizeofEntry offMsgVs; omega
  rw [(h.call id c hc).entry, hoff]
  simp only [maxServerCount, acceptAckSize, offMsgVs] at hsrc ht hlen ⊢
  by_contra hin
  obtain rfl : k = id := startOf_unique hq (requests_get hc)
    (x := startOf w.requests k + 24 * e.src + t) (by omega) (by omega) (by omega) (by omega)
  omega

/-- A stamp determines its bytes. -/
theorem byte_of_readVs {m m' : Mem} {a b : Nat} (h : readVs m a = readVs m' b) {t : Nat}
    (ht : t < 8) : m (a + t) = m' (b + t) := by
  have hmod : ∀ (m : Mem) (a : Nat), readLE m a 4 % 4294967296 = readLE m a 4 := fun m a =>
    readLE_mod m a (Nat.le_refl 4)
  have hview : readLE m a 4 = readLE m' b 4 := by
    have := congrArg (fun v => v.viewId.toNat) h
    simpa [readVs, hmod] using this
  have hreq : readLE m (a + 4) 4 = readLE m' (b + 4) 4 := by
    have := congrArg (fun v => v.reqId.toNat) h
    simpa [readVs, hmod] using this
  rcases Nat.lt_or_ge t 4 with hlt | hge
  · rw [byte_of_readLE (m := m) hlt, hview, ← byte_of_readLE (m := m') hlt]
  · obtain ⟨s, rfl⟩ := Nat.exists_eq_add_of_le hge
    have hs : s < 4 := by omega
    rw [← Nat.add_assoc, ← Nat.add_assoc, byte_of_readLE (m := m) hs, hreq,
      ← byte_of_readLE (m := m') hs]

/-- Two acks for one slot have the same stamp and node id. -/
theorem AckOk.byte_eq {e e' : AckWrite} {rs : List Request} (he : AckOk l rs e)
    (he' : AckOk l rs e') {s t : Nat} (hs : s < acceptAckSize) (ht : t < 12)
    (hoff : e.off + s = e'.off + t) : s = t ∧ e.byte t = e'.byte t := by
  obtain ⟨k, q, hq, hk, hvs, hid⟩ := he.slot
  obtain ⟨k', q', hq', hk', hvs', hid'⟩ := he'.slot
  have ht' : t < acceptAckSize := ht.trans (by decide)
  obtain ⟨rfl, hsrc, rfl⟩ := slot_unique s t hq hq' he.src he'.src hs ht' (by omega)
  refine ⟨rfl, ?_⟩
  rcases Nat.lt_or_ge s 8 with hlt | hge
  · have := byte_of_readVs (hvs.trans hvs'.symm) hlt
    simpa using this
  · obtain ⟨j, rfl⟩ := Nat.exists_eq_add_of_le hge
    have hj : j < 4 := by omega
    rw [byte_of_readLE (m := e.byte) hj, hid, hsrc, ← hid', ← byte_of_readLE (m := e'.byte) hj]

theorem Arrived.callStep (h : Arrived l w) (hinv : Inv T l (w.nodes l).region w) {stored : Bool}
    (hc : w.calls[id]? = some c) (hstep : CallStep w id c stored w') : Arrived l w' := by
  have hacks : w'.ackWrites = w.ackWrites := by cases hstep <;> rfl
  refine ⟨fun e he => ?_, fun e he t ht hvis => ?_⟩
  · rw [(hstep.same l).region]
    exact h.region e (hacks ▸ he)
  · rw [hacks] at he
    rw [(hinv.ack e he).callStep hinv hc hstep (ht.trans (by decide))]
    exact h.byte e he t ht hvis

/-- The leader's process, as far as acks are concerned, did not change. -/
theorem Arrived.frame (h : Arrived l w) (hregion : (w'.nodes l).region = (w.nodes l).region)
    (hmem : (w'.nodes l).log.entries = (w.nodes l).log.entries)
    (hnew : ∀ e ∈ w'.ackWrites, e ∈ w.ackWrites ∨ e.region = (w.nodes l).region ∧ e.visible = 0) :
    Arrived l w' := by
  refine ⟨fun e he => ?_, fun e he t ht hvis => ?_⟩
  · rw [hregion]
    exact (hnew e he).elim (h.region e) And.left
  · rw [hmem]
    rcases hnew e he with hold | ⟨-, hzero⟩
    · exact h.byte e hold t ht hvis
    · omega

theorem Arrived.replicaStep (h : Arrived l w) (hinv : Inv T l (w.nodes l).region w)
    (hlink : Linked n l w) (hl : l < n) {i hash : Nat} (hi : i < n)
    (hstep : ReplicaStep w i true hash w') : Arrived l w' := by
  have hnode := hstep.leader_nodes (hinv.leader rfl).pc (hlink.follows l hl)
  refine h.frame (hstep.same l).region (by rw [hnode]) fun e he => ?_
  cases hstep with
  | @ack _ _ entry leader region hpc hleader hlt hconn =>
      rcases List.mem_append.mp he with hold | hlast
      · exact .inl hold
      · obtain rfl := List.mem_singleton.mp hlast
        obtain ⟨hne, hid⟩ := hinv.ack_leader hpc
        rw [← hleader, hid, hlink.conn i hi l hl (Ne.symm hne)] at hconn
        exact .inr ⟨(Option.some.inj hconn).symm, rfl⟩
  | _ => exact .inl he

theorem Arrived.submit (h : Arrived l w) (hinv : Inv T l (w.nodes l).region w) {q : Request}
    (hwrap : NotWrapping (w.nodes l).log) :
    Arrived l { w.setNode l ((w.nodes l).alloc q) with
      calls := w.calls ++ [(w.nodes l).newCall l q] } := by
  have hleader := hinv.leader rfl
  refine ⟨fun e he => ?_, fun e he t ht hvis => ?_⟩
  · show e.region = ((w.setNode l _).nodes l).region
    rw [setNode_nodes_self]
    exact h.region e he
  · show ((w.setNode l _).nodes l).log.entries _ = _
    rw [setNode_nodes_self, alloc_log, allocEntry_entries, hleader.pos.addNewEntry hwrap,
      ← h.byte e he t ht hvis]
    -- the size of the new entry is stored behind all entries so far
    obtain ⟨k, r, hr, hoff, -⟩ := (hinv.ack e he).slot
    have hsrc := (hinv.ack e he).src
    have hk : k < w.calls.length := by
      rw [← length_requests]
      exact (List.getElem?_eq_some_iff.mp hr).1
    have hend := startOf_add_le hr hk
    refine write_outside _ _ (.inl ?_)
    rw [hoff]
    show _ < startOf w.requests w.calls.length + _
    simp only [maxServerCount, acceptAckSize] at hsrc ⊢
    unfold Request.entryLen sizeofEntry at hend
    omega

theorem Arrived.deliverAck (h : Arrived l w) (hinv : Inv T l (w.nodes l).region w) {a k : Nat}
    {e : AckWrite} (he : w.ackWrites[a]? = some e) (hk : e.visible + k ≤ acceptAckSize) :
    Arrived l ((w.setAckWrite a { e with visible := e.visible + k }).setNode e.dst
      ((w.nodes e.dst).setEntries (write (w.nodes e.dst).log.entries (e.off + e.visible) k
        fun j => e.byte (e.visible + j)))) := by
  have hmem := List.mem_of_getElem? he
  have hok := hinv.ack e hmem
  obtain rfl : l = e.dst := hok.dst.symm
  have hnew : ∀ e' ∈ w.ackWrites.set a { e with visible := e.visible + k },
      ∃ e₀ ∈ w.ackWrites, e'.region = e₀.region ∧ e'.off = e₀.off ∧ e'.byte = e₀.byte
        ∧ (e'.visible = e₀.visible ∨ e₀ = e ∧ e'.visible = e.visible + k) := by
    intro e' he'
    rcases List.mem_or_eq_of_mem_set he' with hold | rfl
    · exact ⟨e', hold, rfl, rfl, rfl, .inl rfl⟩
    · exact ⟨e, hmem, rfl, rfl, rfl, .inr ⟨rfl, rfl⟩⟩
  refine ⟨fun e' he' => ?_, fun e' he' t ht hvis => ?_⟩
  · obtain ⟨e₀, he₀, hreg, -⟩ := hnew e' he'
    rw [setNode_nodes_self, hreg]
    exact h.region e₀ he₀
  · obtain ⟨e₀, he₀, -, hoff, hbyte, hcase⟩ := hnew e' he'
    rw [setNode_nodes_self, hoff, hbyte]
    show write (w.nodes e.dst).log.entries (e.off + e.visible) k (fun j => e.byte (e.visible + j))
      (e₀.off + t) = e₀.byte t
    by_cases hin : e.off + e.visible ≤ e₀.off + t ∧ e₀.off + t < e.off + e.visible + k
    · -- a byte that arrives now, perhaps over an earlier ack for the same slot
      obtain ⟨hs, hsame⟩ := hok.byte_eq (hinv.ack e₀ he₀) (s := e₀.off + t - e.off) (by omega) ht
        (by omega)
      rw [write_inside _ _ hin.1 hin.2, ← hsame]
      exact congrArg e.byte (by omega)
    · rw [write_outside _ _ (by omega)]
      refine h.byte e₀ he₀ t ht ?_
      rcases hcase with hv | ⟨rfl, hv⟩
      · omega
      · omega

end Arrived

/-! ## §5. All of it. -/

/-- All parts together. -/
structure Delivery (n l : Nat) (w : World) : Prop where
  linked : Linked n l w
  sent : Sent n l w
  acked : Acked n l w
  arrived : Arrived l w

section Delivery
variable {T : Request → Prop} {n l : Nat} {w w' : World} {a : Action}

theorem delivery_booted (n l : Nat) : Delivery n l (World.booted n l) where
  linked := linked_booted n l
  sent := ⟨fun id c i hc => (nomatch hc), fun id c hc => (nomatch hc), fun id c hc => (nomatch hc)⟩
  acked := by
    refine ⟨fun i hi _ k hk => ?_⟩
    rw [booted_member hi] at hk
    exact absurd hk (Nat.not_lt_zero k)
  arrived := ⟨fun e he => (nomatch he), fun e he => (nomatch he)⟩

theorem Delivery.step (h : Delivery n l w) (hinv : Inv T l (w.nodes l).region w) (hsize : w.size = n)
    (hl : l < n) (hok : FixedLeader l w a) (hstep : step w a = some w') : Delivery n l w' := by
  have hlinked := h.linked.step hok hstep
  have hregion : ∀ i, (w'.nodes i).region = (w.nodes i).region := fun i =>
    (hok.same hstep i).region
  have hkeep : ∀ e ∈ w.ackWrites, ∃ e' ∈ w.ackWrites, e'.src = e.src ∧ e'.byte = e.byte :=
    fun e he => ⟨e, he, rfl, rfl⟩
  cases step_cases hstep with
  | start | crash | joinReply | connect | destroy | relaunch => exact absurd hok id
  | @submit i q hup hlead hs hfit =>
      obtain ⟨rfl, hwrap⟩ := hok
      refine ⟨hlinked, ⟨fun id c j hc hj hne hp => ?_, fun id c hc => ?_, fun id c hc => ?_⟩,
        h.acked.frame (fun j => ?_) hkeep, h.arrived.submit hinv hwrap⟩
      · rw [hregion]
        rcases get_concat hc with ⟨-, hold⟩ | ⟨-, rfl⟩
        · exact h.sent.posted id c j hold hj hne hp
        · exact absurd hp (by decide : ¬ (decide (5 ≤ 0) = true))
      · rcases get_concat hc with ⟨-, hold⟩ | ⟨-, rfl⟩
        · exact h.sent.unfailed id c hold
        · nofun
      · rcases get_concat hc with ⟨-, hold⟩ | ⟨-, rfl⟩
        · exact h.sent.counted id c hold
        · exact fun h4 => absurd h4 (by decide : ¬ 4 ≤ 0)
      · exact ⟨setNode_field (w := w) Node.accepted fun hij => by rw [← hij]; rfl,
          setNode_field (w := w) Node.pc fun hij => by rw [← hij]; rfl⟩
  | @call id c stored _ hc hup hreg hcall =>
      obtain rfl : stored = true := hok
      have hcallOk := hinv.call id c hc
      refine ⟨hlinked, h.sent.callStep h.linked hsize hcallOk.owner hl hc hcall,
        h.acked.frame (fun j => ?_) ?_, h.arrived.callStep hinv hc hcall⟩
      · exact ⟨hcall.field Node.accepted (fun _ _ => rfl) (fun _ _ => rfl) j,
          hcall.field Node.pc (fun _ _ => rfl) (fun _ _ => rfl) j⟩
      · have hacks : w'.ackWrites = w.ackWrites := by cases hcall <;> rfl
        rw [hacks]
        exact hkeep
  | @replica i hash stored _ hup hrep =>
      obtain ⟨rfl, -⟩ := hok
      have hi : i < n := hsize ▸ hinv.members i hup
      obtain ⟨-, hcalls, hwrites⟩ := hrep.frame
      refine ⟨hlinked, h.sent.frame hregion (fun j => ?_) hcalls,
        h.acked.replicaStep hinv h.linked hl hi hrep, ?_⟩
      · have hto : w'.writesTo j = w.writesTo j := by
          unfold World.writesTo
          rw [hwrites]
        rw [hto]
        exact fun k e he => ⟨e, he, rfl, rfl, rfl, Nat.le_refl _⟩
      · exact h.arrived.replicaStep hinv h.linked hl hi hrep
  | @deliverEntry id i k e he hup hreg hk =>
      have hne := (hinv.write id i e he).server.1
      refine ⟨hlinked, h.sent.frame hregion (fun j => ?_) rfl, h.acked.frame
        (fun j => ?_) hkeep, h.arrived.frame (hregion l) ?_ fun e he => .inl he⟩
      · refine extends_setEntryWrite he ?_ ?_ j
        · exact ⟨rfl, rfl, rfl⟩
        · exact Nat.le_add_right _ _
      · exact ⟨setNode_field (w := w) Node.accepted fun hij => by rw [← hij]; rfl,
          setNode_field (w := w) Node.pc fun hij => by rw [← hij]; rfl⟩
      · exact congrArg (fun nd : Node => nd.log.entries) (setNode_nodes_ne _ _ _ (Ne.symm hne))
  | @deliverAck a k e he hup hreg hk =>
      refine ⟨hlinked, h.sent.frame hregion (fun j => ?_) rfl, h.acked.frame
        (fun j => ?_) ?_, h.arrived.deliverAck hinv he hk⟩
      · exact fun k e he => ⟨e, he, rfl, rfl, rfl, Nat.le_refl _⟩
      · exact ⟨setNode_field (w := w) Node.accepted fun hij => by rw [← hij]; rfl,
          setNode_field (w := w) Node.pc fun hij => by rw [← hij]; rfl⟩
      · intro e' he'
        obtain ⟨b, hb⟩ := List.mem_iff_getElem?.mp he'
        rcases eq_or_ne a b with rfl | hab
        · obtain rfl := Option.some.inj (he.symm.trans hb)
          exact ⟨_, List.mem_set (List.getElem?_eq_some_iff.mp he).1 _, rfl, rfl⟩
        · exact ⟨e', List.mem_iff_getElem?.mpr ⟨b, (List.getElem?_set_ne hab).trans hb⟩, rfl, rfl⟩

theorem delivery_of_reaches (hl : l < n)
    (h : Reaches RdmaPaxos.step (ReadsArrived n l) (World.booted n l) w) : Delivery n l w := by
  induction h with
  | refl => exact delivery_booted n l
  | tail hr hok hs ih =>
      obtain ⟨hinv, -, hballots⟩ := ballots_reaches hr
      exact ih.step hinv hballots.size hl hok.1.1 hs

end Delivery

end RdmaPaxos
