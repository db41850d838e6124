/-
  RdmaPaxos.Consensus.LeaderSteps
  ───────────────────────────────
  **THE STEPS OF `leader_handle_submit_req` KEEP THE INVARIANT.**

  §1  the critical section: the new entry is placed behind all others and the
      call gets the next ticket;
  §2  `Inv.update` — a step of one call that touches no entry but its own;
  §3  one lemma per program counter.
-/
import RdmaPaxos.Consensus.Membership

namespace RdmaPaxos

open RdmaPaxos.ByteMemory RdmaPaxos.Ticket

variable {T : Request → Prop} {l p : Nat} {w : World}

/-! ## §1. The critical section. -/

section Submit
variable {calls : List Call} {nd : Node} {q : Request} {c : Call}

theorem allocEntry_pos (h : LeaderInv l calls nd) (hw : NotWrapping nd.log)
    (hfit : (allocEntry nd.log q.data.size).1 + sizeofEntry + (q.data.size + 1) ≤ nd.log.len) :
    (allocEntry nd.log q.data.size).1 = startOf (calls.map Call.req) calls.length
      ∧ startOf (calls.map Call.req) calls.length + q.entryLen ≤ logSize
      ∧ (allocEntry nd.log q.data.size).2.tailOff = startOf (calls.map Call.req) calls.length := by
  have hentry : (allocEntry nd.log q.data.size).1 = startOf (calls.map Call.req) calls.length := by
    rw [allocEntry_entry, h.pos.addNewEntry hw]
  refine ⟨hentry, ?_, ?_⟩
  · rw [hentry, h.pos.len, Nat.add_assoc] at hfit
    exact hfit
  · rw [allocEntry_tailOff, h.pos.getEntry hw]

/-- The leader after its critical section. -/
theorem LeaderInv.submit (h : LeaderInv l calls nd) (hw : NotWrapping nd.log)
    (hfit : (allocEntry nd.log q.data.size).1 + sizeofEntry + (q.data.size + 1) ≤ nd.log.len)
    (hq : c.req = q) (hpc : c.pc = .sample) :
    LeaderInv l (calls ++ [c]) (nd.alloc q) := by
  obtain ⟨hentry, hin, htail⟩ := allocEntry_pos h hw hfit
  have hreqs : (calls ++ [c]).map Call.req = calls.map Call.req ++ [q] := by
    rw [List.map_append, ← hq]
    rfl
  have hlen : (calls.map Call.req).length = calls.length := List.length_map ..
  have hq217 : sizeofEntry < q.entryLen := by unfold Request.entryLen; omega
  have hsucc : startOf (calls.map Call.req ++ [q]) (calls.length + 1)
      = startOf (calls.map Call.req) calls.length + q.entryLen := by
    have hget : (calls.map Call.req ++ [q])[calls.length]? = some q := by
      rw [← hlen, List.getElem?_concat_length]
    rw [startOf_succ hget, startOf_append hlen.ge]
  have hwrite : ∀ x, x < startOf (calls.map Call.req) calls.length
      ∨ startOf (calls.map Call.req) calls.length + q.entryLen ≤ x →
      (allocEntry nd.log q.data.size).2.entries x = nd.log.entries x := by
    intro x hx
    rw [allocEntry_entries, ← allocEntry_entry _ q.data.size, hentry]
    refine write_outside _ _ ?_
    unfold sizeofEntry at hq217
    unfold offDataSize
    omega
  refine ⟨?_, ?_, h.pc, h.accepted, h.view, ?_, fun id c' hc' => ?_, fun x hx => ?_⟩
  · rw [hreqs, List.length_append, List.length_singleton, alloc_log]
    refine ⟨by rw [allocEntry_len]; exact h.pos.len, .inr ⟨Nat.succ_pos _, ?_, ?_, ?_⟩⟩
    · rw [htail, Nat.add_sub_cancel, startOf_append hlen.ge]
    · rw [htail]
      omega
    · rw [hsucc, allocEntry_endOff, h.pos.getEntry hw]
      unfold Request.entryLen logSize at *
      omega
  · show (⟨nd.seen.viewId, nd.seen.reqId + 1⟩ : ViewStamp) = _
    rw [h.seen, List.length_append, List.length_singleton, ← ofNat_succ]
  · rw [phases_append, hpc]
    exact h.ordered.append
  · rw [hreqs]
    rcases get_concat hc' with ⟨hlt, hc'⟩ | ⟨rfl, rfl⟩
    · -- an older entry lies before the new one
      rw [startOf_append (by omega)]
      have hget : (calls.map Call.req)[id]? = some c'.req := by
        rw [List.getElem?_map, hc']
        rfl
      have hbefore := startOf_add_le hget hlt
      rw [doneCount_append _ hpc]
      refine (h.mem id c' hc').congr fun t _ ht => hwrite _ (.inl ?_)
      omega
    · -- the new entry holds its size
      rw [startOf_append hlen.ge, hpc, hq]
      have hsize : q.data.size + 1 < 256 ^ 8 := by
        unfold Request.entryLen logSize at hin
        omega
      refine ⟨?_, nofun, nofun, nofun, nofun, nofun, nofun, nofun⟩
      show readLE (entryAt (allocEntry nd.log q.data.size).2.entries _) offDataSize 8 = _
      rw [readLE_entryAt, allocEntry_entries, ← allocEntry_entry _ q.data.size, hentry,
        readLE_writeLE_of_lt _ hsize]
  · rw [hreqs, List.length_append, List.length_singleton, hsucc] at hx
    show (allocEntry nd.log q.data.size).2.entries x = 0
    rw [hwrite x (.inr hx)]
    exact h.beyond x (by omega)

end Submit

theorem WriteBytes.append {B : Nat} {rs : List Request} {id : Nat} {e : EntryWrite}
    (h : WriteBytes B rs l id e) (q : Request) : WriteBytes B (rs ++ [q]) l id e := by
  obtain ⟨r, hr, hlen, hin, hbytes⟩ := h.bytes
  have hlt : id < rs.length := (List.getElem?_eq_some_iff.mp hr).1
  refine ⟨by rw [startOf_append hlt.le]; exact h.off, h.visible, r, ?_, hlen, ?_, hbytes⟩
  · rw [List.getElem?_append_left hlt]
    exact hr
  · rw [startOf_append hlt.le]
    exact hin

theorem CallOk.append {rs : List Request} {id : Nat} {c : Call} (h : CallOk l p rs id c)
    (hid : id ≤ rs.length) (q : Request) : CallOk l p (rs ++ [q]) id c := by
  have hstart := startOf_append hid q
  exact ⟨h.owner, h.region, h.next, hstart ▸ h.entry, hstart ▸ h.offset, hstart ▸ h.inside⟩

theorem AckOk.append {rs : List Request} {e : AckWrite} (h : AckOk l rs e) (q : Request) :
    AckOk l (rs ++ [q]) e := by
  obtain ⟨k, r, hr, hoff, hbytes⟩ := h.slot
  have hlt : k < rs.length := (List.getElem?_eq_some_iff.mp hr).1
  refine ⟨h.dst, h.src, ⟨k, r, ?_, ?_, hbytes⟩, h.visible⟩
  · rw [List.getElem?_append_left hlt]
    exact hr
  · rw [startOf_append hlt.le]
    exact hoff

/-- A new call, behind all others. -/
theorem GroupInv.addCall (h : GroupInv T l p w) {c : Call}
    (hgroup : l < w.size ∧ w.size ≤ maxServerCount) (hp : (w.nodes l).region = p)
    (hc : CallOk l p w.requests w.calls.length c) (hpc : c.pc = .sample) :
    GroupInv T l p { w with calls := w.calls ++ [c] } := by
  have hreqs : World.requests { w with calls := w.calls ++ [c] } = w.requests ++ [c.req] := by
    unfold World.requests
    rw [List.map_append]
    rfl
  have hcount : doneCount { w with calls := w.calls ++ [c] }.calls = doneCount w.calls :=
    doneCount_append _ hpc
  have hlen := length_requests w
  refine ⟨h.members, h.connected, fun _ => hgroup, fun id c' hc' => ?_, fun hlt => ?_,
    fun id j e he => ?_, fun e he => ?_, fun j key b hb => ?_, fun id c' hc' hs => ?_,
    fun j hj => ?_, fun j hj => ?_⟩
  · rw [hreqs]
    rcases get_concat hc' with ⟨hlt, hold⟩ | ⟨rfl, rfl⟩
    · exact (h.call id c' hold).append (by omega) c.req
    · exact hc.append hlen.ge c'.req
  · have hlt' : (w.nodes l).region < p := hlt
    omega
  · have hold := h.write id j e he
    refine ⟨hold.server, hold.region, ?_, by rw [hreqs, hcount]; exact hold.bytes.append c.req⟩
    obtain ⟨c', hc', hposted⟩ := hold.posted
    refine ⟨c', ?_, hposted⟩
    show (w.calls ++ [c])[id]? = some c'
    rw [List.getElem?_append_left (List.getElem?_eq_some_iff.mp hc').1]
    exact hc'
  · rw [hreqs]
    exact (h.ack e he).append c.req
  · rw [hreqs]
    obtain ⟨id, q, hq, hrest⟩ := h.record j key b hb
    refine ⟨id, q, ?_, hrest⟩
    rw [List.getElem?_append_left (List.getElem?_eq_some_iff.mp hq).1]
    exact hq
  · rcases get_concat hc' with ⟨-, hold⟩ | ⟨-, rfl⟩
    · exact h.stored id c' hold hs
    · rw [hpc] at hs
      exact absurd hs (by decide)
  · rw [hreqs]
    exact (h.replica j hj).append (fun k e he => (h.write k j e he).bytes) _
  · rw [hreqs, hcount]
    exact (h.applied j hj).append _

theorem Inv.submit (h : Inv T l p w) {q : Request} (hp : (w.nodes l).region = p)
    (hwrap : NotWrapping (w.nodes l).log) (hup : (w.nodes l).up = true)
    (hsize : w.size ≤ maxServerCount)
    (hfit : (allocEntry (w.nodes l).log q.data.size).1 + sizeofEntry + (q.data.size + 1)
      ≤ (w.nodes l).log.len) :
    Inv T l p { w.setNode l ((w.nodes l).alloc q) with
      calls := w.calls ++ [(w.nodes l).newCall l q] } := by
  have hleader := h.leader hp
  obtain ⟨hentry, hin, htail⟩ := allocEntry_pos hleader hwrap hfit
  refine ⟨(h.setLeader ((w.nodes l).alloc q) hp rfl rfl rfl).addCall
    ⟨h.members _ hup, hsize⟩ ?_ ⟨rfl, hp, ?_, hentry, ?_, hin⟩ rfl, fun _ => ?_⟩
  · rw [setNode_nodes_self]
    exact hp
  · show (⟨(w.nodes l).seen.viewId, (w.nodes l).seen.reqId + 1⟩ : ViewStamp)
      = stampOf w.calls.length
    rw [hleader.seen, stampOf, ofNat_succ]
  · show publishOffset (allocEntry (w.nodes l).log q.data.size).2.tailOff = _
    rw [htail]
    unfold logSize at hin
    unfold publishOffset offsetofEntries
    show (336 + startOf (w.calls.map Call.req) w.calls.length) % 2 ^ 32
      = 336 + startOf (w.calls.map Call.req) w.calls.length
    omega
  · show LeaderInv l (w.calls ++ [_]) ((w.setNode l _).nodes l)
    rw [setNode_nodes_self]
    exact hleader.submit hwrap hfit rfl rfl

/-! ## §2. A step of one call. -/

section Step
variable {calls : List Call} {nd : Node} {id : Nat} {c : Call}

/-- A step of call `id` that writes into its own entry only. -/
theorem LeaderInv.step (h : LeaderInv l calls nd) (c' : Call) (hc : calls[id]? = some c)
    (hdone : c.pc ≠ .done) (hreq : c'.req = c.req) {m : Mem} {committed : ViewStamp}
    (hm : ∀ x, x < startOf (calls.map Call.req) id
      ∨ startOf (calls.map Call.req) id + c.req.entryLen ≤ x → m x = nd.log.entries x)
    (hbytes : EntryBytes (doneCount calls) c'.pc.stage l id c.req
      (entryAt m (startOf (calls.map Call.req) id)))
    (hview : committed.viewId = 1)
    (hord : Ordered ((phases calls).set id c'.pc.phase) committed.reqId.toNat) :
    LeaderInv l (calls.set id c')
      { nd with log := { nd.log with entries := m }, committed := committed } := by
  have hreqs : (calls.set id c').map Call.req = calls.map Call.req := map_set_same hc hreq
  have hget : ∀ {j : Nat} {d : Call}, calls[j]? = some d →
      (calls.map Call.req)[j]? = some d.req := fun hd => by
    rw [List.getElem?_map, hd]
    rfl
  have hlt : id < calls.length := (List.getElem?_eq_some_iff.mp hc).1
  refine ⟨?_, ?_, h.pc, h.accepted, hview, by rw [phases_set]; exact hord, fun j d hd => ?_,
    fun x hx => ?_⟩
  · rw [hreqs, List.length_set]
    exact ⟨h.pos.len, h.pos.offs⟩
  · rw [List.length_set]
    exact h.seen
  · rw [hreqs]
    refine EntryBytes.raise ?_ (doneCount_set_le hc hdone c')
    rcases get_set hd with ⟨rfl, rfl⟩ | ⟨hne, hd⟩
    · rw [hreq]
      exact hbytes
    · refine (h.mem j d hd).congr fun t _ ht => hm _ ?_
      -- the bytes written are those of entry `id`, and entries do not overlap
      by_contra hin
      exact hne (startOf_unique (hget hd) (hget hc)
        (x := startOf (calls.map Call.req) j + t) (by omega) (by omega) (by omega) (by omega))
  · rw [hreqs, List.length_set] at hx
    have hend := startOf_add_le (hget hc) hlt
    show m x = 0
    rw [hm x (.inr (by omega))]
    exact h.beyond x hx

/-- **A step of call `id` on the leader.** -/
theorem Inv.update (h : Inv T l p w) (hp : (w.nodes l).region = p) (hc : w.calls[id]? = some c)
    (pc : CallPc) (bitMap : Nat) {m : Mem} {committed : ViewStamp} (hdone : c.pc ≠ .done)
    (hposted : ∀ i, c.pc.posted i = true → pc.posted i = true)
    (hstored : 3 ≤ pc.stage → ∃ b, w.db l (vstol (stampOf id)) = some b)
    (hm : ∀ x, x < startOf w.requests id ∨ startOf w.requests id + c.req.entryLen ≤ x →
      m x = (w.nodes l).log.entries x)
    (hbytes : EntryBytes (doneCount w.calls) pc.stage l id c.req
      (entryAt m (startOf w.requests id)))
    (hview : committed.viewId = 1)
    (hord : Ordered ((phases w.calls).set id pc.phase) committed.reqId.toNat) :
    Inv T l p ((w.setNode l { w.nodes l with
      log := { (w.nodes l).log with entries := m }, committed := committed }).setCall id
        { c with bitMap := bitMap, pc := pc }) := by
  have hleader := (h.leader hp).step { c with bitMap := bitMap, pc := pc } hc hdone rfl hm
    hbytes hview hord
  have hgroup := h.setLeader { w.nodes l with
    log := { (w.nodes l).log with entries := m }, committed := committed } hp rfl rfl rfl
  refine ⟨hgroup.setCall hc hdone hposted hstored, fun _ => ?_⟩
  show LeaderInv l (w.calls.set id _) ((w.setNode l _).nodes l)
  rw [setNode_nodes_self]
  exact hleader

/-- A step of call `id` that writes nothing. -/
theorem Inv.move (h : Inv T l p w) (hp : (w.nodes l).region = p) (hc : w.calls[id]? = some c)
    (pc : CallPc) (bitMap : Nat) (hdone : c.pc ≠ .done)
    (hstage : pc.stage ≤ c.pc.stage ∨ 4 ≤ c.pc.stage)
    (hposted : ∀ i, c.pc.posted i = true → pc.posted i = true)
    (hstored : 3 ≤ pc.stage → ∃ b, w.db l (vstol (stampOf id)) = some b)
    (hord : Ordered ((phases w.calls).set id pc.phase) (w.nodes l).committed.reqId.toNat) :
    Inv T l p (w.setCall id { c with bitMap := bitMap, pc := pc }) := by
  have hleader := h.leader hp
  have hupd := h.update hp hc pc bitMap (m := (w.nodes l).log.entries) hdone hposted hstored
    (fun _ _ => rfl) ((hleader.mem id c hc).mono (by omega)) hleader.view hord
  rwa [setNode_self] at hupd

theorem Inv.length_lt (h : Inv T l p w) : w.calls.length + 1 < 2 ^ 32 := by
  by_cases hnil : w.calls.length = 0
  · omega
  · have hlt : w.calls.length - 1 < w.calls.length := by omega
    have hin := (h.call _ _ (List.getElem?_eq_getElem hlt)).inside
    have hle := le_startOf w.requests (k := w.calls.length - 1) (by rw [length_requests]; omega)
    unfold sizeofEntry at hle
    unfold logSize at hin
    omega

end Step

/-! ## §3. The program counters. -/

section Pc
variable {id : Nat} {c : Call}

/-- Line 179: the commit point a call reads is below its own number. -/
theorem Inv.sample (h : Inv T l p w) (hp : (w.nodes l).region = p) (hc : w.calls[id]? = some c)
    (hpc : c.pc = .sample) :
    Inv T l p ((w.setNode l ((w.nodes l).setEntries (writeVs (w.nodes l).log.entries
      (c.entry + offCanbeExed) (w.nodes l).committed))).setCall id { c with pc := .fill }) := by
  -- the call has not incremented, so what it copies is below its own number
  have hleader := h.leader hp
  have hphase := phases_get hc
  rw [hpc] at hphase
  have hbytes := hleader.mem id c hc
  have hlen : 217 ≤ c.req.entryLen := by unfold Request.entryLen sizeofEntry; omega
  have hle : (w.nodes l).committed.reqId.toNat ≤ id := by
    by_contra hlt
    cases (hleader.ordered.finished id _ hphase).mpr (by omega)
  have hentry := (h.call id c hc).entry
  refine h.update hp hc .fill c.bitMap (by rw [hpc]; nofun) ?_ (fun hs => absurd hs (by decide))
    (fun x hx => ?_)
    ⟨?_, fun _ => ⟨_, hle, hleader.ordered.count_finished.ge, ?_⟩, ?_, ?_, ?_, ?_, ?_, ?_⟩
    hleader.view (hleader.ordered.stay hphase)
  · rw [hpc]
    exact fun i hi => by cases hi
  · refine writeVs_outside _ _ ?_
    rw [hentry]
    unfold offCanbeExed
    omega
  · rw [← hbytes.dataSize, readLE_entryAt, readLE_entryAt, hentry]
    refine readLE_writeVs_disjoint _ _ ?_
    unfold offCanbeExed offDataSize
    omega
  · rw [readVs_entryAt, hentry, readVs_writeVs, ← hleader.view, UInt32.ofNat_toNat]
  all_goals exact fun hs => absurd hs (by decide)

/-- Lines 182–189. -/
theorem Inv.fill (h : Inv T l p w) (hp : (w.nodes l).region = p) (hc : w.calls[id]? = some c)
    (hpc : c.pc = .fill) :
    Inv T l p ((w.setNode l ((w.nodes l).setEntries
      (fillEntry (w.nodes l).log.entries c.entry c.req c.next l))).setCall id
        { c with pc := .store }) := by
  have hleader := h.leader hp
  have hphase := phases_get hc
  rw [hpc] at hphase
  have hbytes := hleader.mem id c hc
  rw [hpc] at hbytes
  have hcall := h.call id c hc
  have hentry : c.entry = startOf (w.calls.map Call.req) id := hcall.entry
  -- `node_id` is a `uint32_t`
  have hl : l < 2 ^ 32 := by
    have hgroup := h.group (by rintro hnil; rw [hnil] at hc; cases hc)
    unfold maxServerCount at hgroup
    omega
  refine h.update hp hc .store c.bitMap (by rw [hpc]; nofun) ?_ (fun hs => absurd hs (by decide))
    (fun x hx => ?_)
    ⟨?_, ?_, ?_, ?_, ?_, ?_, ?_, fun hs => absurd hs (by decide)⟩ hleader.view
    (hleader.ordered.stay hphase)
  · rw [hpc]
    exact fun i hi => by cases hi
  · refine fillEntry_outside _ _ _ _ _ ?_
    rw [hcall.entry]
    unfold Request.entryLen sizeofEntry at hx
    unfold offMsgVs offData
    omega
  all_goals rw [← hcall.entry]
  · rw [readLE_entryAt, fillEntry_dataSize, ← readLE_entryAt, hentry]
    exact hbytes.dataSize
  · rw [readVs_entryAt, fillEntry_canbeExed, ← readVs_entryAt, hentry]
    exact fun _ => hbytes.canbeExed (by decide)
  · rw [readVs_entryAt, fillEntry_msgVs]
    exact fun _ => hcall.next
  · rw [readLE_entryAt, fillEntry_nodeId _ _ _ _ _ hl]
    exact fun _ => rfl
  · rw [readLE_entryAt, fillEntry_type]
    exact fun _ => rfl
  · rw [readVs_entryAt, fillEntry_cltId, hcall.next]
    exact fun _ => rfl
  · intro _ j hj
    unfold entryAt
    rw [← Nat.add_assoc]
    exact fillEntry_data _ _ _ _ _ hj

/-- Line 193: what is stored is the request's record. -/
theorem Inv.store (h : Inv T l p w) (hp : (w.nodes l).region = p) (hc : w.calls[id]? = some c)
    (hpc : c.pc = .store) :
    Inv T l p ((w.storeRecord l (vstol c.next) (recordAt (w.nodes l).log.entries c.entry)).setCall id
      { c with pc := .mark }) := by
  have hleader := h.leader hp
  have hphase := phases_get hc
  rw [hpc] at hphase
  have hcall := h.call id c hc
  have hbytes := hleader.mem id c hc
  rw [hpc, show startOf (w.calls.map Call.req) id = c.entry from hcall.entry.symm] at hbytes
  have hstored : Inv T l p (w.storeRecord l (vstol c.next)
      (recordAt (w.nodes l).log.entries c.entry)) :=
    ⟨h.storeRecord (requests_get hc) (by rw [hcall.next]) (.of_eq (hbytes.decode_recordAt (by decide))),
      h.leader⟩
  -- the marker is not written yet, so the entry is still as after the fill
  refine ⟨hstored.setCall hc (by rw [hpc]; nofun) ?_ (fun _ => ?_), fun _ => ?_⟩
  · rw [hpc]
    exact fun i hi => by cases hi
  · rw [storeRecord_db, hcall.next, if_pos ⟨rfl, rfl⟩]
    exact ⟨_, rfl⟩
  · exact hleader.step { c with pc := .mark } hc (by rw [hpc]; nofun) rfl (fun _ _ => rfl)
      ((hleader.mem id c hc).mono (.inr (.inr ⟨by rw [hpc]; decide, Nat.le_refl 3⟩))) hleader.view
      (hleader.ordered.stay hphase)

/-- Lines 202–203. -/
theorem Inv.mark (h : Inv T l p w) (hp : (w.nodes l).region = p) (hc : w.calls[id]? = some c)
    (hpc : c.pc = .mark) :
    Inv T l p ((w.setNode l ((w.nodes l).setEntries
      (markEntry (w.nodes l).log.entries c.entry))).setCall id
        { c with bitMap := 1 <<< l, pc := .post 0 }) := by
  have hleader := h.leader hp
  have hphase := phases_get hc
  rw [hpc] at hphase
  have hcall := h.call id c hc
  have hin := hcall.inside
  have hbytes := hleader.mem id c hc
  rw [hpc, show startOf (w.calls.map Call.req) id = c.entry from hcall.entry.symm] at hbytes
  have hlen : c.req.entryLen = 217 + c.req.data.size := by
    unfold Request.entryLen sizeofEntry
    omega
  -- the length is computed from the size stored when the entry was allocated
  have hmark : markEntry (w.nodes l).log.entries c.entry
      = write (w.nodes l).log.entries (c.entry + c.req.entryLen - 1) 1 fun _ => dummyEnd := by
    unfold markEntry
    rw [hbytes.logEntryLen_eq (by omega)]
  refine h.update hp hc (.post 0) (1 <<< l) (by rw [hpc]; nofun) ?_
    (fun _ => h.stored id c hc (by rw [hpc]; decide))
    (fun x hx => ?_) ?_ hleader.view (hleader.ordered.stay hphase)
  · rw [hpc]
    exact fun i hi => by cases hi
  · rw [hmark, hcall.entry]
    exact write_outside _ _ (by omega)
  · rw [← hcall.entry, hmark]
    refine hbytes.transfer (by decide) (fun t _ ht => ?_) (fun _ => ?_)
    · exact write_outside _ _ (by omega)
    · exact write_inside _ _ (by omega) (by omega)

/-- Line 217: the write that is posted carries the finished entry. -/
theorem Inv.post (h : Inv T l p w) (hp : (w.nodes l).region = p) (hc : w.calls[id]? = some c)
    {i region : Nat} (hpc : c.pc = .post i) (hi : i < w.size) (hne : i ≠ l)
    (hregion : (w.nodes l).conn i = some region) :
    Inv T l p ((w.setEntryWrite id i (postEntry (w.nodes l).log.entries c region)).setCall id
      { c with pc := .post (i + 1) }) := by
  have hleader := h.leader hp
  have hphase := phases_get hc
  have hcall := h.call id c hc
  have hin := hcall.inside
  have hbytes := hleader.mem id c hc
  rw [hpc] at hphase hbytes
  rw [show startOf (w.calls.map Call.req) id = c.entry from hcall.entry.symm] at hbytes
  have hmoved := h.move hp hc (.post (i + 1)) c.bitMap (by rw [hpc]; nofun)
    (by rw [hpc]; exact .inr (Nat.le_refl 4))
    (by
      rw [hpc]
      intro j hj
      have hlt := of_decide_eq_true hj
      exact decide_eq_true (by omega))
    (fun _ => h.stored id c hc (by rw [hpc]; exact (by decide : 3 ≤ 4)))
    (hleader.ordered.stay hphase)
  -- the write to server `i` is new: the call was not past `i`
  have hnone : w.writesTo i id = none := by
    by_contra hsome
    obtain ⟨e, he⟩ := Option.ne_none_iff_exists'.mp hsome
    obtain ⟨d, hd, hpost⟩ := (h.write id i e he).posted
    rw [hc] at hd
    cases hd
    rw [hpc] at hpost
    exact absurd (of_decide_eq_true hpost) (Nat.lt_irrefl i)
  have hreqs : (w.setCall id { c with pc := .post (i + 1) }).requests = w.requests :=
    map_set_same hc rfl
  have hlen : logEntryLen (w.nodes l).log.entries c.entry = c.req.entryLen :=
    hbytes.logEntryLen_eq (by omega)
  have hwrite : WriteOk l (w.setCall id { c with pc := .post (i + 1) }) id i
      (postEntry (w.nodes l).log.entries c region) := by
    refine ⟨⟨hne, hi⟩, h.connected l i region hregion,
      ⟨_, List.getElem?_set_self (List.getElem?_eq_some_iff.mp hc).1,
        decide_eq_true (Nat.lt_succ_self i)⟩, ?_⟩
    rw [hreqs]
    have hcount := doneCount_set_le hc (by rw [hpc]; nofun) { c with pc := .post (i + 1) }
    refine ⟨?_, Nat.zero_le _, c.req, requests_get hc, hlen, hin, hbytes.raise hcount⟩
    show c.offset - offsetofEntries = _
    rw [hcall.offset, Nat.add_sub_cancel_left]
  have hext : Extends (w.writesTo i) (Function.update (w.writesTo i) id
      (some (postEntry (w.nodes l).log.entries c region))) := by
    intro k e he
    refine ⟨e, ?_, rfl, rfl, rfl, Nat.le_refl _⟩
    rw [Function.update_of_ne (by rintro rfl; rw [hnone] at he; cases he)]
    exact he
  have hold := hmoved.replica i fun hboth => hne hboth.1
  have hnew := hmoved.setEntryWrite (m := (w.nodes i).log.entries) hwrite hext
    ⟨hold.pos, hold.mem.post hnone rfl, hold.accepted, hold.pc.extend hext, hold.reply⟩
  rw [show ((w.setCall id _).nodes i).setEntries (w.nodes i).log.entries
      = ((w.setCall id { c with pc := .post (i + 1) }).setEntryWrite id i
        (postEntry (w.nodes l).log.entries c region)).nodes i from rfl, setNode_self] at hnew
  exact ⟨hnew, hmoved.leader⟩

/-- Line 229: the spin-wait lets a call through when its number is next. -/
theorem Inv.leaveSpin (h : Inv T l p w) (hp : (w.nodes l).region = p) (hc : w.calls[id]? = some c)
    (hpc : c.pc = .spin)
    (htest : ¬ (readVs (w.nodes l).log.entries (c.entry + offMsgVs)).reqId
      > (w.nodes l).committed.reqId + 1) :
    Inv T l p (w.setCall id { c with pc := .incRead }) := by
  have hleader := h.leader hp
  have hphase := phases_get hc
  have hcall := h.call id c hc
  have hbytes := hleader.mem id c hc
  rw [hpc] at hphase hbytes
  rw [show startOf (w.calls.map Call.req) id = c.entry from hcall.entry.symm] at hbytes
  have hlt : id < w.calls.length := (List.getElem?_eq_some_iff.mp hc).1
  have hshort := h.length_lt
  have hle := hleader.ordered.le
  rw [phases, List.length_map] at hle
  refine h.move hp hc .incRead c.bitMap (by rw [hpc]; nofun) (.inr (by rw [hpc]; decide)) ?_
    (fun _ => h.stored id c hc (by rw [hpc]; decide)) (hleader.ordered.enter hphase ?_)
  · exact fun i _ => rfl
  · have hvs := hbytes.msgVs (by decide)
    rw [readVs_entryAt] at hvs
    rw [hvs] at htest
    exact le_of_not_spinning (by omega) (by omega) htest

/-- Line 230, the read. -/
theorem Inv.incRead (h : Inv T l p w) (hp : (w.nodes l).region = p) (hc : w.calls[id]? = some c)
    (hpc : c.pc = .incRead) :
    Inv T l p (w.setCall id { c with pc := .incWrite (w.nodes l).committed.reqId }) := by
  have hphase := phases_get hc
  rw [hpc] at hphase
  exact h.move hp hc (.incWrite _) c.bitMap (by rw [hpc]; nofun) (.inr (by rw [hpc]; decide)) (fun i _ => rfl)
    (fun _ => h.stored id c hc (by rw [hpc]; decide)) ((h.leader hp).ordered.read hphase)

/-- Line 230, the write. -/
theorem Inv.incWrite (h : Inv T l p w) (hp : (w.nodes l).region = p) (hc : w.calls[id]? = some c)
    {v : UInt32} (hpc : c.pc = .incWrite v) :
    Inv T l p ((w.setNode l { w.nodes l with
      committed := ⟨(w.nodes l).committed.viewId, v + 1⟩ }).setCall id { c with pc := .done }) := by
  have hleader := h.leader hp
  have hphase := phases_get hc
  rw [hpc] at hphase
  have hord := hleader.ordered.write hphase
  have hle := hord.le
  rw [List.length_set, phases, List.length_map] at hle
  have hshort := h.length_lt
  have hv : (v + 1).toNat = v.toNat + 1 := toNat_succ (by omega)
  refine h.update hp hc .done c.bitMap (m := (w.nodes l).log.entries) (by rw [hpc]; nofun) (fun i _ => rfl)
    (fun _ => h.stored id c hc (by rw [hpc]; exact (by decide : 3 ≤ 7))) (fun _ _ => rfl)
    ((hleader.mem id c hc).mono (.inr (.inl (by rw [hpc]; exact (by decide : 4 ≤ 7))))) hleader.view ?_
  rw [show (ViewStamp.mk (w.nodes l).committed.viewId (v + 1)).reqId.toNat = v.toNat + 1 from hv]
  exact hord

/-- A step of the recheck loop, of the quorum test or of the post loop that
only moves the program counter, between pcs that wait for their ticket. -/
theorem Inv.moveWaiting (h : Inv T l p w) (hp : (w.nodes l).region = p)
    (hc : w.calls[id]? = some c) (pc : CallPc) (bitMap : Nat) (hstage : 4 ≤ c.pc.stage)
    (hposted : ∀ i, c.pc.posted i = true → pc.posted i = true)
    (hphase : c.pc.phase = .waiting) (hphase' : pc.phase = .waiting) :
    Inv T l p (w.setCall id { c with bitMap := bitMap, pc := pc }) := by
  have hget := phases_get hc
  rw [hphase, ← hphase'] at hget
  have hdone : c.pc ≠ .done := fun heq => by
    rw [heq] at hphase
    cases hphase
  exact h.move hp hc pc bitMap hdone (.inr hstage) hposted
    (fun _ => h.stored id c hc (by omega)) ((h.leader hp).ordered.stay hget)

/-- **Every step of a call keeps the invariant.** -/
theorem Inv.callStep (h : Inv T l p w) (hc : w.calls[id]? = some c)
    (hregion : (w.nodes c.owner).region = c.region) {stored : Bool} {w' : World}
    (hstep : CallStep w id c stored w') : Inv T l p w' := by
  have hcall := h.call id c hc
  obtain rfl : l = c.owner := hcall.owner.symm
  have hp := hregion.trans hcall.region
  have hnext : ∀ i j, CallPc.posted j (.post i) = true → CallPc.posted j (.post (i + 1)) = true := by
    intro i j hj
    have hlt := of_decide_eq_true hj
    exact decide_eq_true (by omega)
  have hphase := phases_get hc
  cases hstep with
  | sample hpc => exact h.sample hp hc hpc
  | fill hpc => exact h.fill hp hc hpc
  | store hpc => exact h.store hp hc hpc
  | fail hpc =>
      rw [hpc] at hphase
      refine h.move hp hc .failed c.bitMap (by rw [hpc]; nofun) (.inl (by rw [hpc]; decide)) ?_
        (fun hs => absurd hs (by decide)) ((h.leader hp).ordered.stay hphase)
      rw [hpc]
      exact fun i hi => by cases hi
  | mark hpc => exact h.mark hp hc hpc
  | skip hpc hi hno =>
      exact h.moveWaiting hp hc _ c.bitMap (by rw [hpc]; exact Nat.le_refl 4)
        (by rw [hpc]; exact hnext _) (by rw [hpc]; rfl) rfl
  | post hpc hi hne hconn => exact h.post hp hc hpc hi hne hconn
  | posted hpc hi =>
      exact h.moveWaiting hp hc (.recheck 0) c.bitMap (by rw [hpc]; exact Nat.le_refl 4)
        (fun _ _ => rfl) (by rw [hpc]; rfl) rfl
  | hit hpc hi hvs =>
      exact h.moveWaiting hp hc (.ackId _) c.bitMap (by rw [hpc]; exact Nat.le_succ 4)
        (fun _ _ => rfl) (by rw [hpc]; rfl) rfl
  | miss hpc hi hvs =>
      exact h.moveWaiting hp hc (.recheck _) c.bitMap (by rw [hpc]; exact Nat.le_succ 4)
        (fun _ _ => rfl) (by rw [hpc]; rfl) rfl
  | scanned hpc hi =>
      exact h.moveWaiting hp hc .quorum c.bitMap (by rw [hpc]; exact Nat.le_succ 4)
        (fun _ _ => rfl) (by rw [hpc]; rfl) rfl
  | ackId hpc hlt hid =>
      exact h.moveWaiting hp hc (.recheck _) _ (by rw [hpc]; exact Nat.le_succ 4)
        (fun _ _ => rfl) (by rw [hpc]; rfl) rfl
  | quorum hpc hq =>
      exact h.moveWaiting hp hc .spin c.bitMap (by rw [hpc]; exact Nat.le_succ 4)
        (fun _ _ => rfl) (by rw [hpc]; rfl) rfl
  | again hpc hq =>
      exact h.moveWaiting hp hc (.recheck 0) c.bitMap (by rw [hpc]; exact Nat.le_succ 4)
        (fun _ _ => rfl) (by rw [hpc]; rfl) rfl
  | spin hpc htest => exact h
  | leaveSpin hpc htest => exact h.leaveSpin hp hc hpc htest
  | incRead hpc => exact h.incRead hp hc hpc
  | incWrite hpc => exact h.incWrite hp hc hpc

end Pc

end RdmaPaxos
