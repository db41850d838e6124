/-
  RdmaPaxos.Consensus.Progress
  ────────────────────────────
  **A REQUEST CAN BE DRIVEN TO ACCEPTANCE.**

  The invariants say what a run cannot do; this module builds runs.  From any
  state in which a leader serves a connected follower that has accepted all
  entries so far (`Serving`), the threads can be scheduled so that the next
  request is accepted too, and the state is again of this kind.  So a follower
  can be brought to the end of any sequence of requests that fits the log.

  §1  the schedules, and a leader serving a follower;
  §2  the leader's call, up to its polling loop;
  §3  the follower, once the entry has arrived;
  §4  one request, and all of them.
-/
import RdmaPaxos.Consensus.ReplicaSteps

namespace RdmaPaxos

open RdmaPaxos.ByteMemory RdmaPaxos.Ticket RdmaPaxos.Run

/-! ## §1. Schedules. -/

/-- Leader `l` submits the requests `all` one after the other; the steps of the
calls, the followers' loops and the arriving bytes come in any order; nothing
fails and nobody comes or goes. -/
def Schedule (l : Nat) (all : List Request) (w : World) : Action → Prop
  | .submit i q => i = l ∧ all[w.calls.length]? = some q
  | .call _ stored => stored = true
  | .replica _ stored _ => stored = true
  | .deliverEntry _ _ _ => True
  | .deliverAck _ _ => True
  | _ => False

theorem ReplicaStep.run {l f : Nat} {all : List Request} {w w' : World}
    (h : ReplicaStep w f true 0 w') (hup : (w.nodes f).up = true)
    (hsize : SizeArrived w (.replica f true 0)) : Reaches step (WholeSizes (Schedule l all)) w w' :=
  .single (a := .replica f true 0) ⟨rfl, hsize⟩ (Step.replica hup h).exec

/-- Entry `k` is there in full. -/
def Whole (writes : Nat → Option EntryWrite) (region k : Nat) : Prop :=
  ∃ e, writes k = some e ∧ e.region = region ∧ e.len ≤ e.visible

section Whole
variable {T : Request → Prop} {l p i k : Nat} {w : World}

/-- The bytes of an entry that is there in full. -/
theorem Inv.entryBytes (h : Inv T l p w) (hi : i ≠ l)
    (hwhole : Whole (w.writesTo i) (w.nodes i).region k) :
    ∃ q, w.requests[k]? = some q ∧ startOf w.requests k + q.entryLen ≤ logSize
      ∧ EntryBytes (doneCount w.calls) 4 l k q
        (entryAt (w.nodes i).log.entries (startOf w.requests k)) := by
  obtain ⟨e, he, hreg, hvis⟩ := hwhole
  obtain ⟨q, hq, -, hin, -⟩ := (h.writeBytes i k e he).bytes
  have hrep := h.replica i fun hboth => hi hboth.1
  exact ⟨q, hq, hin, hrep.mem.entryBytes (h.writeBytes i) he hreg hvis hq⟩

/-- Its size is there too, whenever the follower reads it. -/
theorem sizeArrived_of_whole {B : Nat} {rs : List Request}
    (hw : ∀ k e, w.writesTo i k = some e → WriteBytes B rs l k e) {entry : Nat}
    (hpc : (w.nodes i).pc = .measure entry) (hentry : entry = startOf rs k)
    (hwhole : Whole (w.writesTo i) (w.nodes i).region k) (stored : Bool) (hash : Nat) :
    SizeArrived w (.replica i stored hash) := by
  intro id _ e he hat _
  obtain ⟨e', he', -, hvis⟩ := hwhole
  obtain ⟨q, hq, hlen, -, -⟩ := (hw k e' he').bytes
  have hbytes := hw id e he
  obtain ⟨r, hr, -⟩ := hbytes.bytes
  -- only the write of entry `k` goes there
  obtain rfl : id = k := by
    refine startOf_inj (List.getElem?_eq_some_iff.mp hr).1.le (List.getElem?_eq_some_iff.mp hq).1.le ?_
    rw [hpc] at hat
    rw [← hbytes.off, ← hentry]
    exact (ReplicaPc.measure.inj hat).symm
  have hsame : w.writesTo i id = some e := he
  rw [he'] at hsame
  cases hsame
  unfold Request.entryLen sizeofEntry at hlen
  unfold offDataSize
  omega

end Whole

/-- Leader `l` has submitted `rs` and committed nothing; follower `f` is
connected, and all it has accepted arrived in its present log. -/
structure Serving (n l f : Nat) (rs : List Request) (w : World) : Prop where
  inv : Inv Request.Any l (w.nodes l).region w
  size : w.size = n
  up : (w.nodes l).up = true
  lead : (w.nodes l).leaderId = l
  conn : (w.nodes l).conn f = some (w.nodes f).region
  requests : w.requests = rs
  quiet : ∀ (id : Nat) (c : Call), w.calls[id]? = some c → c.pc ≠ .done
  followerUp : (w.nodes f).up = true
  follows : (w.nodes f).leaderId ≠ f
  whole : ∀ k < (w.nodes f).accepted.length, Whole (w.writesTo f) (w.nodes f).region k

section Serving
variable {n l f : Nat} {rs : List Request} {w w' : World}

theorem Serving.doneCount_eq (h : Serving n l f rs w) : doneCount w.calls = 0 := by
  refine List.count_eq_zero.mpr fun hmem => ?_
  obtain ⟨c, hc, hphase⟩ := List.mem_map.mp hmem
  obtain ⟨id, hid⟩ := List.mem_iff_getElem?.mp hc
  exact h.quiet id c hid (CallPc.phase_finished.mp hphase)

/-- A step in which every process stays what it is. -/
theorem Serving.frame (h : Serving n l f rs w) (hinv : Inv Request.Any l (w.nodes l).region w')
    (hsame : ∀ j, (w.nodes j).Same (w'.nodes j)) (hsize : w'.size = w.size)
    {rs' : List Request} (hreqs : w'.requests = rs')
    (hquiet : ∀ (id : Nat) (c : Call), w'.calls[id]? = some c → c.pc ≠ .done)
    (hwhole : ∀ k < (w'.nodes f).accepted.length, Whole (w'.writesTo f) (w.nodes f).region k) :
    Serving n l f rs' w' where
  inv := by
    rw [(hsame l).region]
    exact hinv
  size := hsize.trans h.size
  up := (hsame l).up.trans h.up
  lead := (hsame l).leaderId.trans h.lead
  conn := by
    rw [(hsame l).conn, (hsame f).region]
    exact h.conn
  requests := hreqs
  quiet := hquiet
  followerUp := (hsame f).up.trans h.followerUp
  follows := by
    rw [(hsame f).leaderId]
    exact h.follows
  whole := by
    rw [(hsame f).region]
    exact hwhole

/-- One iteration step of the follower's loop. -/
theorem Serving.replicaStep (h : Serving n l f rs w) {all : List Request}
    (hwrap : (w.nodes f).pc = .poll → NotWrapping (w.nodes f).log)
    (harr : SizeArrived w (.replica f true 0)) (hstep : ReplicaStep w f true 0 w')
    (hwhole : ∀ k < (w'.nodes f).accepted.length, Whole (w.writesTo f) (w.nodes f).region k) :
    Reaches step (WholeSizes (Schedule l all)) w w' ∧ Serving n l f rs w' := by
  have hexec : step w (.replica f true 0) = some w' := (Step.replica h.followerUp hstep).exec
  obtain ⟨hsize, hcalls, hwrites⟩ := hstep.frame
  have hto : w'.writesTo f = w.writesTo f := by
    unfold World.writesTo
    rw [hwrites]
  refine ⟨hstep.run h.followerUp harr, h.frame
    (h.inv.preserved (a := .replica f true 0) (fun hpc _ => hwrap hpc) (.inr harr) hexec)
    hstep.same hsize
    (hstep.requests.trans h.requests) ?_ ?_⟩
  · rw [hcalls]
    exact h.quiet
  · rw [hto]
    exact hwhole

end Serving

/-! ## §2. The call. -/

/-- The last call is at `pc`; the follower has accepted everything before it. -/
structure Driving (n l f : Nat) (rs : List Request) (pc : CallPc) (w : World) : Prop
    extends Serving n l f rs w where
  idle : (w.nodes f).pc = .poll
  count : (w.nodes f).accepted.length + 1 = rs.length
  call : ∃ c, w.calls[(w.nodes f).accepted.length]? = some c ∧ c.pc = pc
  sent : pc.posted f = true → ∃ e, w.writesTo f (w.nodes f).accepted.length = some e
    ∧ e.region = (w.nodes f).region ∧ e.visible = 0

section Call
variable {n l f j : Nat} {rs all : List Request} {pc pc' : CallPc} {w w' : World}

/-- A step of the call that leaves the follower alone. -/
theorem Driving.next (h : Driving n l f rs pc w) {c c' : Call}
    (hj : (w.nodes f).accepted.length = j) (hc : w.calls[j]? = some c)
    (hstep : CallStep w j c true w') (hcalls : w'.calls = w.calls.set j c') (hreq : c'.req = c.req)
    (hpc : c'.pc = pc') (hdone : pc' ≠ .done) (hsize : w'.size = w.size)
    (hnode : w'.nodes f = w.nodes f)
    (hold : ∀ id, id ≠ j → w'.writesTo f id = w.writesTo f id)
    (hsent : pc'.posted f = true → ∃ e, w'.writesTo f j = some e
      ∧ e.region = (w.nodes f).region ∧ e.visible = 0) :
    Reaches step (WholeSizes (Schedule l all)) w w' ∧ Driving n l f rs pc' w' := by
  have hcall := h.inv.call j c hc
  have hexec : step w (.call j true) = some w' := by
    refine (Step.call hc ?_ ?_ hstep).exec
    · rw [hcall.owner]
      exact h.up
    · rw [hcall.owner, hcall.region]
  subst hj
  refine ⟨.single (a := .call _ true) ⟨rfl, trivial⟩ hexec, ⟨h.toServing.frame
    (h.inv.preserved (a := .call _ true) trivial (.inr trivial) hexec) hstep.same hsize
      ?_ ?_ ?_, ?_, ?_, ?_, ?_⟩⟩
  · rw [← h.requests]
    show w'.calls.map Call.req = w.calls.map Call.req
    rw [hcalls]
    exact map_set_same hc hreq
  · intro id d hd
    rw [hcalls] at hd
    rcases get_set hd with ⟨rfl, rfl⟩ | ⟨-, hd⟩
    · rw [hpc]
      exact hdone
    · exact h.quiet id d hd
  · -- the entries accepted before are not those of this call
    rw [hnode]
    intro k hk
    unfold Whole
    rw [hold k (Nat.ne_of_lt hk)]
    exact h.whole k hk
  · rw [hnode]
    exact h.idle
  · rw [hnode]
    exact h.count
  · rw [hnode]
    refine ⟨c', ?_, hpc⟩
    rw [hcalls]
    exact List.getElem?_set_self (List.getElem?_eq_some_iff.mp hc).1
  · rw [hnode]
    exact hsent

/-- A step in which the call writes into its entry. -/
theorem Driving.writeEntry (h : Driving n l f rs pc w) (hfl : f ≠ l)
    (hstep : ∀ (id : Nat) (c : Call), c.pc = pc → ∃ m bitMap, CallStep w id c true
      ((w.setNode c.owner ((w.nodes c.owner).setEntries m)).setCall id
        { c with bitMap := bitMap, pc := pc' }))
    (hdone : pc' ≠ .done) (hposted : pc'.posted f = false) :
    ∃ w', Reaches step (WholeSizes (Schedule l all)) w w' ∧ Driving n l f rs pc' w' := by
  obtain ⟨c, hc, hpc⟩ := h.call
  obtain rfl : c.owner = l := (h.inv.call _ c hc).owner
  obtain ⟨m, bitMap, hcall⟩ := hstep _ c hpc
  refine ⟨_, h.next rfl hc hcall rfl rfl rfl hdone rfl ?_ (fun _ _ => rfl) ?_⟩
  · exact setNode_nodes_ne _ _ _ hfl
  · rw [hposted]
    nofun

/-- Lines 179–203: from the critical section to the post loop. -/
theorem Driving.prepare (h : Driving n l f rs .sample w) (hfl : f ≠ l) :
    ∃ w', Reaches step (WholeSizes (Schedule l all)) w w' ∧ Driving n l f rs (.post 0) w' := by
  obtain ⟨w₁, r₁, h₁⟩ := h.writeEntry hfl (fun _ c hpc => ⟨_, c.bitMap, .sample hpc⟩) nofun rfl
  obtain ⟨w₂, r₂, h₂⟩ := h₁.writeEntry hfl (fun _ c hpc => ⟨_, c.bitMap, .fill hpc⟩) nofun rfl
  -- the record is stored
  obtain ⟨c, hc, hpc⟩ := h₂.call
  obtain ⟨r₃, h₃⟩ := h₂.next rfl hc (.store hpc) rfl rfl rfl nofun rfl rfl (fun _ _ => rfl) nofun
  obtain ⟨w₄, r₄, h₄⟩ := h₃.writeEntry hfl (fun _ c hpc => ⟨_, _, .mark hpc⟩) nofun
    (decide_eq_false (Nat.not_lt_zero f))
  exact ⟨w₄, ((r₁.trans r₂).trans r₃).trans r₄, h₄⟩

/-- Lines 209–218, one server. -/
theorem Driving.postOne {i : Nat} (h : Driving n l f rs (.post i) w) (hfl : f ≠ l) (hi : i < n) :
    ∃ w', Reaches step (WholeSizes (Schedule l all)) w w' ∧ Driving n l f rs (.post (i + 1)) w' := by
  obtain ⟨c, hc, hpc⟩ := h.call
  obtain rfl : c.owner = l := (h.inv.call _ c hc).owner
  have hsize : i < w.size := by
    rw [h.size]
    exact hi
  by_cases hif : i = f
  · -- the follower itself: its write is posted
    subst hif
    refine ⟨_, h.next rfl hc (.post hpc hsize hfl h.conn) rfl rfl rfl nofun rfl rfl
      (fun id hid => ?_) fun _ => ?_⟩
    · show (w.setEntryWrite _ i _).writesTo i id = _
      rw [setEntryWrite_writesTo, Function.update_of_ne hid]
    · refine ⟨postEntry (w.nodes c.owner).log.entries c (w.nodes i).region, ?_, rfl, rfl⟩
      show (w.setEntryWrite _ i _).writesTo i _ = _
      rw [setEntryWrite_writesTo, Function.update_self]
  · have hsent : (CallPc.post (i + 1)).posted f = true →
        ∃ e, w.writesTo f (w.nodes f).accepted.length = some e
          ∧ e.region = (w.nodes f).region ∧ e.visible = 0 := by
      intro hposted
      have hlt : f < i + 1 := of_decide_eq_true hposted
      exact h.sent (decide_eq_true (by omega))
    by_cases hown : i = c.owner
    · exact ⟨_, h.next rfl hc (.skip hpc hsize (.inl hown)) rfl rfl rfl nofun rfl rfl
        (fun _ _ => rfl) hsent⟩
    · cases hconn : (w.nodes c.owner).conn i with
      | none =>
          exact ⟨_, h.next rfl hc (.skip hpc hsize (.inr hconn)) rfl rfl rfl nofun rfl rfl
            (fun _ _ => rfl) hsent⟩
      | some region =>
          have hsame : ∀ (id : Nat) (e : EntryWrite),
              (w.setEntryWrite id i e).writesTo f = w.writesTo f :=
            fun id e => setEntryWrite_writesTo_ne _ _ _ (Ne.symm hif)
          refine ⟨_, h.next rfl hc (.post hpc hsize hown hconn) rfl rfl rfl nofun rfl rfl
            (fun id _ => congrFun (hsame _ _) id) fun hposted => ?_⟩
          obtain ⟨e, he, hrest⟩ := hsent hposted
          exact ⟨e, (congrFun (hsame _ _) _).trans he, hrest⟩

/-- Lines 209–218: the rest of the post loop, by induction on the servers left. -/
theorem Driving.postAll (hfl : f ≠ l) (hf : f < n) (k : Nat) :
    ∀ {i : Nat} {w : World}, i + k = n → Driving n l f rs (.post i) w →
      ∃ w', Reaches step (WholeSizes (Schedule l all)) w w' ∧ Driving n l f rs (.recheck 0) w' := by
  induction k with
  | zero =>
      intro i w hik h
      obtain ⟨c, hc, hpc⟩ := h.call
      have hend : ¬ i < w.size := by
        rw [h.size]
        omega
      refine ⟨_, h.next rfl hc (.posted hpc hend) rfl rfl rfl nofun rfl rfl (fun _ _ => rfl)
        fun _ => h.sent (decide_eq_true (by omega))⟩
  | succ k ih =>
      intro i w hik h
      obtain ⟨w₁, r₁, h₁⟩ := h.postOne hfl (by omega)
      obtain ⟨w₂, r₂, h₂⟩ := ih (by omega) h₁
      exact ⟨w₂, r₁.trans r₂, h₂⟩

end Call

/-! ## §3. The follower. -/

section Detect
variable {w : World} {l f a id q B : Nat}

/-- Lines 267–273 find the size of an entry that is there. -/
theorem ReplicaStep.found {q : Request} (hpc : (w.nodes f).pc = .poll)
    (hlead : (w.nodes f).leaderId ≠ f) (hlen : (w.nodes f).log.len = logSize)
    (hoff : logGetEntry (w.nodes f).log (w.nodes f).log.endOff = a)
    (hin : a + q.entryLen ≤ logSize)
    (hb : EntryBytes B 4 l id q (entryAt (w.nodes f).log.entries a)) :
    ReplicaStep w f true 0 (w.setNode f { w.nodes f with
      log := { (w.nodes f).log with endOff := a }, pc := .measure a }) := by
  have hsize := hb.dataSize
  rw [readLE_entryAt] at hsize
  have hfit : a + sizeofEntry ≤ (w.nodes f).log.len := by
    rw [hlen]
    unfold Request.entryLen at hin
    omega
  have hstep : ReplicaStep w f true 0 _ := .poll hpc hlead hoff hfit
  rwa [if_pos (by omega)] at hstep

/-- Line 275 takes its length. -/
theorem ReplicaStep.measured {q : Request} (hpc : (w.nodes f).pc = .measure a)
    (hin : a + q.entryLen ≤ logSize)
    (hb : EntryBytes B 4 l id q (entryAt (w.nodes f).log.entries a)) :
    ReplicaStep w f true 0 (w.setNode f { w.nodes f with pc := .marker a q.entryLen }) := by
  have hstep : ReplicaStep w f true 0 _ := .measure hpc
  rwa [hb.logEntryLen_eq (by omega)] at hstep

/-- Lines 276–281 find its marker. -/
theorem ReplicaStep.marked {q : Request} (hpc : (w.nodes f).pc = .marker a q.entryLen)
    (hlen : (w.nodes f).log.len = logSize) (hin : a + q.entryLen ≤ logSize)
    (hb : EntryBytes B 4 l id q (entryAt (w.nodes f).log.entries a)) :
    ReplicaStep w f true 0 (w.setNode f { w.nodes f with pc := .accept a }) := by
  have hpos : 0 < q.entryLen := by
    unfold Request.entryLen
    omega
  have hmark : (w.nodes f).log.entries (a + q.entryLen - 1) = dummyEnd := by
    rw [Nat.add_sub_assoc hpos]
    exact hb.marker (Nat.le_refl 4)
  have hstep : ReplicaStep w f true 0 _ :=
    .marker hpc (by rw [hlen]; exact hin) hpos
  rwa [if_pos hmark] at hstep

end Detect

/-- Entry `j`, the last one, has arrived; the follower is at `pc` and has
accepted `k` entries. -/
structure Following (n l f j k : Nat) (rs : List Request) (pc : ReplicaPc) (w : World) : Prop
    extends Serving n l f rs w where
  last : j + 1 = rs.length
  pcEq : (w.nodes f).pc = pc
  count : (w.nodes f).accepted.length = k
  arrived : Whole (w.writesTo f) (w.nodes f).region j

section Follower
variable {n l f j k : Nat} {rs all : List Request} {pc pc' : ReplicaPc} {w w' : World}

/-- All bytes of the entry arrive at once. -/
theorem Driving.deliver (h : Driving n l f rs (.recheck 0) w) :
    ∃ j w', Reaches step (WholeSizes (Schedule l all)) w w' ∧ Following n l f j j rs .poll w' := by
  obtain ⟨e, he, hregion, hvis⟩ := h.sent rfl
  have hexec := (Step.deliverEntry (k := e.len) he h.followerUp hregion.symm (by omega)).exec
  have hinv := h.inv.preserved (a := .deliverEntry _ _ _) trivial (.inr trivial) hexec
  -- all bytes arrive at once
  have hwhole : ∀ k ≤ (w.nodes f).accepted.length, Whole
      ((w.setEntryWrite (w.nodes f).accepted.length f { e with visible := e.visible + e.len }).writesTo
        f) (w.nodes f).region k := by
    intro k hk
    unfold Whole
    rw [setEntryWrite_writesTo]
    rcases Nat.lt_or_eq_of_le hk with hlt | rfl
    · rw [Function.update_of_ne (Nat.ne_of_lt hlt)]
      exact h.whole k hlt
    · rw [Function.update_self]
      exact ⟨_, rfl, hregion, Nat.le_add_left _ _⟩
  have hnode := setNode_nodes_self (w.setEntryWrite (w.nodes f).accepted.length f
    { e with visible := e.visible + e.len }) f ((w.nodes f).setEntries
      (write (w.nodes f).log.entries (e.off + e.visible) e.len fun j => e.byte (e.visible + j)))
  refine ⟨(w.nodes f).accepted.length, _, .single (a := .deliverEntry _ _ _) ⟨trivial, trivial⟩ hexec,
    ⟨h.toServing.frame hinv (same_setNode (w := w.setEntryWrite _ f _) (.setEntries _ _)) rfl
      h.requests h.quiet ?_, h.count, ?_, ?_, ?_⟩⟩
  · rw [hnode]
    exact fun k hk => hwhole k (Nat.le_of_lt hk)
  · rw [hnode]
    exact h.idle
  · rw [hnode]
    rfl
  · rw [hnode]
    exact hwhole _ (Nat.le_refl _)

theorem Following.next (h : Following n l f j k rs pc w)
    (hwrap : pc = .poll → NotWrapping (w.nodes f).log)
    (harr : SizeArrived w (.replica f true 0)) (hstep : ReplicaStep w f true 0 w')
    (pc' : ReplicaPc) (k' : Nat) (hpc : (w'.nodes f).pc = pc')
    (hcount : (w'.nodes f).accepted.length = k') (hk : k' ≤ k ∨ k' = j + 1 ∧ k = j) :
    Reaches step (WholeSizes (Schedule l all)) w w' ∧ Following n l f j k' rs pc' w' := by
  have hto : w'.writesTo f = w.writesTo f := by
    unfold World.writesTo
    rw [hstep.frame.2.2]
  have hwhole : ∀ i < (w'.nodes f).accepted.length, Whole (w.writesTo f) (w.nodes f).region i := by
    intro i hi
    rw [hcount] at hi
    have hold := h.count
    rcases Nat.lt_or_ge i k with hlt | hge
    · exact h.whole i (by omega)
    · -- only the accepting step adds an entry: the one that has arrived
      obtain rfl : i = j := by omega
      exact h.arrived
  obtain ⟨hrun, hserving⟩ :=
    h.toServing.replicaStep (fun hp => hwrap (h.pcEq.symm.trans hp)) harr hstep hwhole
  refine ⟨hrun, hserving, h.last, hpc, hcount, ?_⟩
  rw [hto, (hstep.same f).region]
  exact h.arrived

theorem Following.replicaInv (h : Following n l f j k rs pc w) (hfl : f ≠ l) :
    ReplicaInv Request.Any rs (w.writesTo f) f (w.nodes f) := by
  have hrep := h.inv.replica f fun hboth => hfl hboth.1
  rwa [h.requests] at hrep

theorem Following.entryBytes (h : Following n l f j k rs pc w) (hfl : f ≠ l) :
    ∃ q, rs[j]? = some q ∧ startOf rs j + q.entryLen ≤ logSize
      ∧ EntryBytes 0 4 l j q (entryAt (w.nodes f).log.entries (startOf rs j)) := by
  have hbytes := h.inv.entryBytes hfl h.arrived
  rwa [h.requests, h.doneCount_eq] at hbytes

/-- The follower reads no size in part, unless it is that of another entry. -/
theorem Following.arrives (h : Following n l f j k rs pc w)
    (hpc : ∀ entry, pc = .measure entry → entry = startOf rs j) :
    SizeArrived w (.replica f true 0) := by
  by_cases hmeasure : ∃ entry, (w.nodes f).pc = .measure entry
  · obtain ⟨entry, heq⟩ := hmeasure
    refine sizeArrived_of_whole (h.inv.writeBytes f) heq ?_ h.arrived true 0
    rw [h.requests]
    exact hpc entry (h.pcEq.symm.trans heq)
  · exact sizeArrived_of_ne fun entry heq => hmeasure ⟨entry, heq⟩

/-- Lines 267–281: the follower finds the entry. -/
theorem Following.detect (h : Following n l f j j rs .poll w) (hfl : f ≠ l)
    (hwrap : NotWrapping (w.nodes f).log) : ∃ w', Reaches step (WholeSizes (Schedule l all)) w w'
      ∧ Following n l f j j rs (.accept (startOf rs j)) w' := by
  have hrep := h.replicaInv hfl
  have hoff := hrep.pos.getEntry hwrap
  rw [h.count] at hoff
  obtain ⟨q, -, hin, hb⟩ := h.entryBytes hfl
  obtain ⟨r₁, h₁⟩ := h.next (fun _ => hwrap) (h.arrives nofun)
    (.found h.pcEq h.follows hrep.pos.len hoff hin hb) (.measure (startOf rs j)) j
    (by rw [setNode_nodes_self]) (by rw [setNode_nodes_self]; exact h.count) (.inl (Nat.le_refl j))
  obtain ⟨q₁, hq₁, hin₁, hb₁⟩ := h₁.entryBytes hfl
  obtain ⟨r₂, h₂⟩ := h₁.next nofun (h₁.arrives fun _ heq => (ReplicaPc.measure.inj heq).symm)
    (.measured h₁.pcEq hin₁ hb₁) (.marker (startOf rs j) q₁.entryLen) j
    (by rw [setNode_nodes_self]) (by rw [setNode_nodes_self]; exact h₁.count) (.inl (Nat.le_refl j))
  obtain ⟨q₂, hq₂, hin₂, hb₂⟩ := h₂.entryBytes hfl
  obtain rfl : q₁ = q₂ := Option.some.inj (hq₁.symm.trans hq₂)
  obtain ⟨r₃, h₃⟩ := h₂.next nofun (h₂.arrives nofun)
    (.marked h₂.pcEq (h₂.replicaInv hfl).pos.len hin₂ hb₂)
    (.accept (startOf rs j)) j (by rw [setNode_nodes_self])
    (by rw [setNode_nodes_self]; exact h₂.count) (.inl (Nat.le_refl j))
  exact ⟨_, (r₁.trans r₂).trans r₃, h₃⟩

/-- Lines 283–345: it accepts the entry and posts the ack. -/
theorem Following.accept (h : Following n l f j j rs (.accept (startOf rs j)) w) (hfl : f ≠ l) :
    ∃ w', Reaches step (WholeSizes (Schedule l all)) w w'
      ∧ Following n l f j (j + 1) rs (.commit (startOf rs j)) w' := by
  obtain ⟨w₁, r₁, h₁⟩ : ∃ w', Reaches step (WholeSizes (Schedule l all)) w w'
      ∧ Following n l f j (j + 1) rs (.ack (startOf rs j)) w' :=
    ⟨_, h.next nofun (h.arrives nofun) (.accept h.pcEq) _ _ (by rw [setNode_nodes_self]; rfl)
      (by rw [setNode_nodes_self, ← h.count]; exact List.length_append) (.inr ⟨rfl, rfl⟩)⟩
  obtain ⟨q, hq, hin, hb⟩ := h₁.entryBytes hfl
  have hid := hb.nodeId (by decide)
  rw [readLE_entryAt] at hid
  -- the leader's id in the entry is one of the group
  have hne : w₁.calls ≠ [] := by
    intro hnil
    have hlast := h₁.last
    rw [← h₁.requests, length_requests, hnil] at hlast
    cases hlast
  have hl := h₁.inv.group hne
  have hlt : l < maxServerCount := by omega
  cases hconn : (w₁.nodes f).conn l with
  | none =>
      obtain ⟨r₂, h₂⟩ := h₁.next nofun (h₁.arrives nofun) (.unconnected h₁.pcEq (by rw [hid]; exact hconn)
        (by rw [hid]; exact hlt)) (.commit (startOf rs j)) (j + 1) (by rw [setNode_nodes_self])
        (by rw [setNode_nodes_self]; exact h₁.count) (.inl (Nat.le_refl _))
      exact ⟨_, r₁.trans r₂, h₂⟩
  | some region =>
      obtain ⟨r₂, h₂⟩ := h₁.next nofun (h₁.arrives nofun) (.ack h₁.pcEq hid hlt hconn)
        (.commit (startOf rs j)) (j + 1)
        (congrArg Node.pc (setNode_nodes_self _ _ _))
        ((congrArg (fun nd : Node => nd.accepted.length) (setNode_nodes_self _ _ _)).trans h₁.count)
        (.inl (Nat.le_refl _))
      exact ⟨_, r₁.trans r₂, h₂⟩

/-- Lines 347–356 have nothing to apply yet. -/
theorem Following.commit (h : Following n l f j (j + 1) rs (.commit (startOf rs j)) w)
    (hfl : f ≠ l) : ∃ w', Reaches step (WholeSizes (Schedule l all)) w w'
      ∧ Following n l f j (j + 1) rs .poll w' := by
  have happ := h.inv.applied f hfl
  have hcommit := (commitOk_iff (by rw [h.pcEq]; nofun)).mp happ.commit
  have hbound := happ.bound
  rw [h.doneCount_eq] at hbound
  have hstamp : (w.nodes f).committed = ⟨1, (w.nodes f).committed.reqId⟩ := by
    rw [← happ.view]
  obtain ⟨i, hi⟩ := h.inv.worksOn (.inr (.inl h.pcEq))
  obtain ⟨e, x, -, -, hx, -, -, hmem⟩ := h.inv.canbeExed hi
  rw [h.doneCount_eq] at hx
  have htest : ¬ viewStampComp (readVs (w.nodes f).log.entries (startOf rs j + offCanbeExed))
      (w.nodes f).committed > 0 := by
    rw [hmem, hstamp, gt_iff_lt, viewStampComp_viewOne, Nat.le_zero.mp hx]
    exact Nat.not_lt_zero _
  obtain ⟨r, h'⟩ := h.next nofun (h.arrives nofun) (.commit h.pcEq) .poll (j + 1)
    (by rw [setNode_nodes_self]; exact if_neg htest)
    (by rw [setNode_nodes_self]; exact h.count) (.inl (Nat.le_refl _))
  exact ⟨_, r, h'⟩

end Follower

/-! ## §4. Requests. -/

/-- The log has room for the header of the next entry, or is empty. -/
theorem LogAt.notWrapping {rs : List Request} {log : DareLog} {k : Nat} (h : LogAt rs log k)
    (hk : k = 0 ∨ startOf rs k + sizeofEntry ≤ logSize) : NotWrapping log := by
  rcases h.offs with ⟨-, htail, -⟩ | ⟨hpos, -, -, hend⟩
  · exact .inr (htail.trans h.len.symm)
  · have hfit : startOf rs k + sizeofEntry ≤ logSize := hk.resolve_left (by omega)
    refine .inl ((fit_iff_of_le ?_ ?_).mpr ?_)
    · rw [h.len]
      decide
    · rw [h.len, hend]
      omega
    · rw [h.len, hend]
      exact hfit

/-- A state between two requests: follower `f` has accepted all of `rs`. -/
structure Idle (n l f : Nat) (rs : List Request) (w : World) : Prop
    extends Serving n l f rs w where
  idle : (w.nodes f).pc = .poll
  count : (w.nodes f).accepted.length = rs.length

section Requests
variable {n l f : Nat} {rs all : List Request} {w : World}

/-- Lines 130–177. -/
theorem Idle.submit (h : Idle n l f rs w) (hfl : f ≠ l) (hn : n ≤ maxServerCount) {q : Request}
    (hq : all[rs.length]? = some q)
    (hroom : rs.length = 0 ∨ startOf rs rs.length + sizeofEntry ≤ logSize)
    (hfit : startOf rs rs.length + q.entryLen ≤ logSize) :
    ∃ w', Reaches step (WholeSizes (Schedule l all)) w w' ∧ Driving n l f (rs ++ [q]) .sample w' := by
  have hlen : w.calls.length = rs.length := by rw [← length_requests, h.requests]
  have hpos := (h.inv.leader rfl).pos
  rw [show w.calls.map Call.req = rs from h.requests, hlen] at hpos
  have hwrap := hpos.notWrapping hroom
  have hexec := (Step.submit (q := q) h.up h.lead (by rw [h.size]; exact hn) (by
    rw [allocEntry_entry, hpos.addNewEntry hwrap, hpos.len]
    unfold Request.entryLen at hfit
    omega)).exec
  have hnode : ∀ calls : List Call, ({ w.setNode l ((w.nodes l).alloc q) with
      calls := calls } : World).nodes f = w.nodes f := fun _ => setNode_nodes_ne _ _ _ hfl
  refine ⟨_, .single (a := .submit l q) ⟨⟨rfl, by rw [hlen]; exact hq⟩, trivial⟩ hexec,
    ⟨h.toServing.frame (h.inv.preserved (a := .submit l q) ⟨rfl, rfl, hwrap⟩ (.inr trivial) hexec)
      (same_setNode (w := w) (.alloc _ _)) rfl ?_ ?_ ?_, ?_, ?_, ?_, nofun⟩⟩
  · show (w.calls ++ [(w.nodes l).newCall l q]).map Call.req = rs ++ [q]
    rw [List.map_append, ← h.requests]
    rfl
  · intro id c hc
    rcases get_concat hc with ⟨-, hold⟩ | ⟨-, rfl⟩
    · exact h.quiet id c hold
    · nofun
  · rw [hnode]
    exact h.whole
  · rw [hnode]
    exact h.idle
  · rw [hnode, h.count, List.length_append]
    rfl
  · rw [hnode, h.count, ← hlen]
    exact ⟨_, List.getElem?_concat_length, rfl⟩

/-- **One more request is accepted.** -/
theorem Idle.serve (h : Idle n l f rs w) (hfl : f ≠ l) (hf : f < n) (hn : n ≤ maxServerCount)
    {q : Request} (hq : all[rs.length]? = some q)
    (hroom : rs.length = 0 ∨ startOf rs rs.length + sizeofEntry ≤ logSize)
    (hfit : startOf rs rs.length + q.entryLen ≤ logSize) :
    ∃ w', Reaches step (WholeSizes (Schedule l all)) w w' ∧ Idle n l f (rs ++ [q]) w' := by
  obtain ⟨w₁, r₁, h₁⟩ := h.submit hfl hn hq hroom hfit
  obtain ⟨w₂, r₂, h₂⟩ := h₁.prepare hfl
  obtain ⟨w₃, r₃, h₃⟩ := Driving.postAll hfl hf n (Nat.zero_add n) h₂
  obtain ⟨j, w₄, r₄, h₄⟩ := h₃.deliver
  have hj : j = rs.length := by
    have hlast := h₄.last
    rw [List.length_append] at hlast
    exact Nat.succ.inj hlast
  subst hj
  -- the follower's log is at the same position, so its header fits too
  have hwrap : NotWrapping (w₄.nodes f).log := by
    refine (h₄.replicaInv hfl).pos.notWrapping ?_
    rw [h₄.count, startOf_append (Nat.le_refl _)]
    exact hroom
  obtain ⟨w₅, r₅, h₅⟩ := h₄.detect hfl hwrap
  obtain ⟨w₆, r₆, h₆⟩ := h₅.accept hfl
  obtain ⟨w₇, r₇, h₇⟩ := h₆.commit hfl
  exact ⟨w₇, (((((r₁.trans r₂).trans r₃).trans r₄).trans r₅).trans r₆).trans r₇,
    h₇.toServing, h₇.pcEq, h₇.count.trans h₇.last⟩

end Requests

end RdmaPaxos
