/-
  RdmaPaxos.SharedMemory.Commit
  ─────────────────────────────
  **WHAT `rsm_op` COMMITS.**

  `committed` should count requests that the leader has stored and a quorum has acked,
  and a call whose store fails should return without a trace:

      store_record fails  ─▶  mutex released, nothing written, return 1
      committed = k       ─▶  requests 1 … k stored, and acked by a quorum

  Both hold until a failed call returns, and neither can be relied on from then on: the
  call increments `committed` like any other, for a request that was neither stored nor
  sent, and leaves with the mutex locked, so that no later call passes line 92.

  Acks are two writes, and the loop reads them in two steps: an id that has not arrived
  yet is read as 0.  In a group of four or more whose leader is not node 0 that is one
  vote too many (the last run of §5); `IdArrived` leaves these reads out.

  §1  the guard;
  §2  steps of placed calls;
  §3  all runs;
  §4  the property and the theorem;
  §5  runs.
-/
import RdmaPaxos.SharedMemory.Invariant

namespace RdmaPaxos.SharedMemory

open RdmaPaxos.BitSet RdmaPaxos.Run RdmaPaxos.Ticket

/-! ## §1. The guard. -/

/-- An ack whose id has not arrived is read as that of node 0.  That is the leader, or
one of at most three. -/
def Call.idArrived (s : State) (c : Call) : Bool :=
  match c.pc, c.newEntry with
  | .ackId i, some off =>
      s.nodeId = 0 || s.groupSize ≤ 3 || ((s.entries off).ack i).nodeId = i
  | _, _ => true

/-- Where a false id would count, ids are read after they have arrived. -/
def IdArrived (s : State) : Action → Prop
  | .run id _ _ => (s.calls[id]?).all (Call.idArrived s) = true
  | _ => True

instance (s : State) : (a : Action) → Decidable (IdArrived s a)
  | .run _ _ _ => inferInstanceAs (Decidable (_ = true))
  | .call _ | .ackStamp _ _ | .ackNode _ _ => .isTrue trivial

/-! ## §2. Steps of placed calls. -/

section Steps
variable {n l id : Nat} {s : State} {c : Call}

/-- In the loops or at the spin-wait. -/
def RsmPc.waits : RsmPc → Bool
  | .copy _ | .recheck _ | .ackId _ | .quorum | .spin => true
  | _ => false

/-- In the loops, and not between the stamp and the node id of an ack. -/
def RsmPc.polls : RsmPc → Bool
  | .copy _ | .recheck _ | .quorum => true
  | _ => false

/-- A call in the loops has placed and filled its entry. -/
theorem RsmPc.ne_of_waits {pc : RsmPc} (h : pc.waits = true) :
    (pc ≠ .lock ∧ pc ≠ .store) ∧ pc ≠ .sample ∧ pc ≠ .fill := by
  refine ⟨⟨?_, ?_⟩, ?_, ?_⟩
  all_goals
    rintro rfl
    cases h

/-- A call in the loops waits for its turn. -/
theorem Call.phase_of_waits {c : Call} (h : c.pc.waits = true) : c.phase = .waiting := by
  unfold Call.phase
  cases hpc : c.pc with
  | incRead | incWrite | returned => rw [hpc] at h; cases h
  | _ => rfl

/-- The order of the increments does not see a step of a call that waits. -/
theorem Inv.ordered_waiting {t : Nat} (h : Inv n l s) (ht : s.order[t]? = some id)
    (hc : s.calls[id]? = some c) (hphase : c.phase = .waiting) :
    Ordered (s.phases.set t .waiting) s.committed.reqId.toNat :=
  h.ordered.stay ((phases_get ht hc).trans (congrArg some hphase))

/-- A step in the loops, or out of them, that changes the place only. -/
theorem Inv.loop {off : Nat} {pc : RsmPc} (h : Inv n l s) (hc : s.calls[id]? = some c)
    (hoff : c.newEntry = some off) (hw : c.pc.waits = true) (hw' : pc.waits = true)
    (hacked : ∀ i, pc = .ackId i → (i, c.next) ∈ s.acks)
    (hquorum : pc.atExit = true → n ≤ 1 ∨ reachedQuorum c.record n = true) :
    Inv n l (s.setCall id { c with pc := pc }) := by
  obtain ⟨t, ht, hplaced⟩ := h.ticket hc hoff
  obtain ⟨-, hs, hf⟩ := RsmPc.ne_of_waits hw
  refine h.goto hc hoff ht hoff (RsmPc.ne_of_waits hw').1 ?_ (hplaced.goto hs hf hacked hquorum)
  rw [Call.phase_of_waits (c := { c with pc := pc }) hw']
  exact h.ordered_waiting ht hc (Call.phase_of_waits hw)

/-- … within the loops. -/
theorem Inv.poll {off : Nat} {pc : RsmPc} (h : Inv n l s) (hc : s.calls[id]? = some c)
    (hoff : c.newEntry = some off) (hw : c.pc.waits = true) (hpc : pc.polls = true) :
    Inv n l (s.setCall id { c with pc := pc }) := by
  cases pc with
  | copy | recheck | quorum =>
      exact h.loop hc hoff hw rfl (fun _ hack => by cases hack) fun hexit => by cases hexit
  | _ => cases hpc

/-- An ack is counted. -/
theorem Placed.count {t off b i : Nat} (h : Placed n l s t c off) (hw : c.pc.waits = true)
    (hb : b < 31) (hcounts : Counts n l s c.next b) :
    Placed n l s t
      { c with record := updateRecord c.record (UInt32.ofNat b), pc := .recheck i } off := by
  obtain ⟨-, hs, hf⟩ := RsmPc.ne_of_waits hw
  have hself : (UInt32.ofNat b).toNat = b := UInt32.toNat_ofNat_of_lt' (hb.trans (by decide))
  refine ⟨h.next, h.within, h.data, h.stored, fun _ _ => h.filled hs hf, fun _ hpc => ?_,
    fun k hk => ?_, fun hexit => ?_⟩
  · cases hpc
  · have hk' : k ∈ BitSet.bits (c.record.bitMap ||| bit (UInt32.ofNat b)) := hk
    rw [bits_or, bits_bit (by rw [hself]; exact hb), hself, Finset.mem_union,
      Finset.mem_singleton] at hk'
    rcases hk' with hold | rfl
    · exact h.bits k hold
    · exact hcounts
  · cases hexit

/-- What the recheck loop takes from slot `i`. -/
theorem Inv.counts_ack {off i : Nat} (h : Inv n l s) (hpc : c.pc = .ackId i)
    (hoff : c.newEntry = some off) (hok : c.idArrived s = true) (hack : (i, c.next) ∈ s.acks) :
    Counts n l s c.next ((s.entries off).ack i).nodeId ∧ ((s.entries off).ack i).nodeId < n := by
  have hi : i < n := (h.acks _ hack).1
  rcases (h.slots off i).2 with hzero | hown
  · have hcases : l = 0 ∨ n ≤ 3 ∨ ((s.entries off).ack i).nodeId = i := by
      rw [Call.idArrived, hpc, hoff, h.node, h.size] at hok
      simpa [or_assoc] using hok
    refine ⟨?_, by omega⟩
    rcases hcases with hleader | hsmall | harrived
    · exact .inl (hzero.trans hleader.symm)
    · exact .inr (.inr ⟨hsmall, i, hack⟩)
    · rw [harrived]
      exact .inr (.inl hack)
  · rw [hown]
    exact ⟨.inr (.inl hack), hi⟩

/-! ### The steps that write. -/

/-- The commit point is copied into the entry. -/
theorem Inv.sample {off : Nat} (h : Inv n l s) (hc : s.calls[id]? = some c)
    (hoff : c.newEntry = some off) (hpc : c.pc = .sample) :
    Inv n l ((s.setEntry off { s.entries off with
      nodeId := s.nodeId, reqCanbeExed := s.committed }).setCall id { c with pc := .fill }) := by
  obtain ⟨t, ht, hplaced⟩ := h.ticket hc hoff
  refine h.update hc hoff ht (fun o hne => Function.update_of_ne hne _ _) (ack_update rfl)
    h.copies (fun _ _ => rfl) hoff ⟨RsmPc.noConfusion, RsmPc.noConfusion⟩
    (h.ordered_waiting ht hc (by rw [Call.phase, hpc])) ?_
  exact ⟨hplaced.next, hplaced.within, hplaced.data, hplaced.stored,
    fun _ hfill => absurd rfl hfill, fun _ hack => (by cases hack), hplaced.bits,
    fun hexit => by cases hexit⟩

/-- From now on the entry has the stamp of the request. -/
theorem Inv.fill {off : Nat} {pc : RsmPc} (h : Inv n l s) (hc : s.calls[id]? = some c)
    (hoff : c.newEntry = some off) (hpc : c.pc = .fill)
    (hnext : 1 < s.groupSize ∧ pc = .copy 0 ∨ s.groupSize ≤ 1 ∧ pc = .spin) :
    Inv n l ((s.setEntry off { s.entries off with msgVs := c.next, data := c.data }).setCall id
      { c with pc := pc }) := by
  obtain ⟨t, ht, hplaced⟩ := h.ticket hc hoff
  have hw : pc.waits = true := by rcases hnext with ⟨-, rfl⟩ | ⟨-, rfl⟩ <;> rfl
  refine h.update hc hoff ht (fun o hne => Function.update_of_ne hne _ _) (ack_update rfl)
    h.copies (fun _ _ => rfl) hoff (RsmPc.ne_of_waits hw).1 ?_ ?_
  · rw [Call.phase_of_waits (c := { c with pc := pc }) hw]
    exact h.ordered_waiting ht hc (by rw [Call.phase, hpc])
  · refine ⟨hplaced.next, hplaced.within, hplaced.data, hplaced.stored, fun _ _ => ?_,
      fun i hack => ?_, hplaced.bits, fun hexit => .inl ?_⟩
    · show (Function.update s.entries off _ off).msgVs = c.next
      rw [Function.update_self]
    · rcases hnext with ⟨-, rfl⟩ | ⟨-, rfl⟩ <;> cases hack
    · rcases hnext with ⟨-, rfl⟩ | ⟨hsize, rfl⟩
      · cases hexit
      · rwa [h.size] at hsize

/-- The entry is copied to a server. -/
theorem Inv.copy {off i : Nat} (h : Inv n l s) (hc : s.calls[id]? = some c)
    (hoff : c.newEntry = some off) (hpc : c.pc = .copy i) (hi : i < s.groupSize)
    (hne : i ≠ s.nodeId) :
    Inv n l ((s.copyEntry i off).setCall id { c with pc := .copy (i + 1) }) := by
  obtain ⟨t, ht, hplaced⟩ := h.ticket hc hoff
  have hw : c.pc.waits = true := by rw [hpc]; rfl
  obtain ⟨-, hs, hf⟩ := RsmPc.ne_of_waits hw
  refine h.update hc hoff ht (fun _ _ => rfl) (fun _ => rfl) (fun j o e he => ?_)
    (fun _ _ => rfl) hoff ⟨RsmPc.noConfusion, RsmPc.noConfusion⟩
    (h.ordered_waiting ht hc (Call.phase_of_waits hw)) ?_
  · by_cases hj : j = i
    · rw [hj, ← h.size, ← h.node]
      exact ⟨hi, hne⟩
    · have hsame : (s.copyEntry i off).copies j = s.copies j := Function.update_of_ne hj _ _
      rw [hsame] at he
      exact h.copies j o e he
  · exact (hplaced.goto hs hf (fun _ hack => by cases hack) fun hexit => by cases hexit).frame
      rfl rfl (fun _ hp => hp) le_rfl

/-- The record is stored again or not; either way the database has the data. -/
theorem Inv.ackId {off i : Nat} {stored : Bool} (h : Inv n l s) (hn : n ≤ maxServerCount)
    (hc : s.calls[id]? = some c) (hoff : c.newEntry = some off) (hpc : c.pc = .ackId i)
    (hok : c.idArrived s = true) :
    Inv n l ((s.storeRecord c
      (updateRecord c.record (UInt32.ofNat ((s.entries off).ack i).nodeId)) stored).setCall id
        { c with
          record := updateRecord c.record (UInt32.ofNat ((s.entries off).ack i).nodeId)
          pc := .recheck (i + 1) }) := by
  obtain ⟨t, ht, hplaced⟩ := h.ticket hc hoff
  have hw : c.pc.waits = true := by rw [hpc]; rfl
  obtain ⟨hcounts, hid⟩ := h.counts_ack hpc hoff hok (hplaced.acked i hpc)
  have hcounted := hplaced.count (i := i + 1) hw
    (Nat.lt_of_lt_of_le hid (hn.trans (by decide))) hcounts
  have hord := h.ordered_waiting ht hc (Call.phase_of_waits hw)
  cases stored with
  | false => exact h.goto hc hoff ht hoff ⟨RsmPc.noConfusion, RsmPc.noConfusion⟩ hord hcounted
  | true =>
      refine h.update hc hoff ht (fun _ _ => rfl) (fun _ => rfl) h.copies (fun k hk => ?_) hoff
        ⟨RsmPc.noConfusion, RsmPc.noConfusion⟩ hord ?_
      · rw [← hplaced.next] at hk
        exact Function.update_of_ne hk _ _
      · refine ⟨hcounted.next, hcounted.within, hcounted.data, ?_, hcounted.filled,
          hcounted.acked, hcounted.bits, hcounted.quorum⟩
        rw [← hplaced.next]
        exact ⟨_, (Function.update_self ..).trans (congrArg some
          (congrArg (RequestRecord.mk _) hplaced.data))⟩

/-- The stamp of the request is found in slot `i`. -/
theorem Inv.hit {off i : Nat} (h : Inv n l s) (hc : s.calls[id]? = some c)
    (hoff : c.newEntry = some off) (hpc : c.pc = .recheck i)
    (hvs : ((s.entries off).ack i).msgVs = c.next) :
    Inv n l (s.setCall id { c with pc := .ackId i }) := by
  obtain ⟨t, -, hplaced⟩ := h.ticket hc hoff
  refine h.loop hc hoff (by rw [hpc]; rfl) rfl (fun j hj => ?_) fun hexit => by cases hexit
  cases hj
  -- a stamp of view 1 is not that of an unwritten slot
  rcases (h.slots off i).1 with hzero | hack
  · rw [hvs, hplaced.next] at hzero
    cases congrArg ViewStamp.viewId hzero
  · rwa [hvs] at hack

/-- A step of the sending and polling loops. -/
theorem Inv.replicates {off : Nat} {stored : Bool} {s' : State} (h : Inv n l s)
    (hn : n ≤ maxServerCount) (hc : s.calls[id]? = some c) (hoff : c.newEntry = some off)
    (hok : c.idArrived s = true) (hrep : Replicates s id c off stored s') : Inv n l s' := by
  cases hrep with
  | sample hpc => exact h.sample hc hoff hpc
  | fill hpc hnext => exact h.fill hc hoff hpc hnext
  | copy hpc hi hne => exact h.copy hc hoff hpc hi hne
  | skip hpc => exact h.poll hc hoff (by rw [hpc]; rfl) rfl
  | copied hpc => exact h.poll hc hoff (by rw [hpc]; rfl) rfl
  | hit hpc _ hvs => exact h.hit hc hoff hpc hvs
  | miss hpc => exact h.poll hc hoff (by rw [hpc]; rfl) rfl
  | scanned hpc => exact h.poll hc hoff (by rw [hpc]; rfl) rfl
  | ackId hpc => exact h.ackId hn hc hoff hpc hok
  | quorum hpc hq =>
      refine h.loop hc hoff (by rw [hpc]; rfl) rfl (fun _ hack => by cases hack) fun _ => .inr ?_
      rwa [h.size] at hq
  | again hpc => exact h.poll hc hoff (by rw [hpc]; rfl) rfl

/-! ### The exit. -/

/-- The spin-wait lets a placed call through. -/
theorem Inv.leaveSpin {off : Nat} (h : Inv n l s) (hc : s.calls[id]? = some c)
    (hoff : c.newEntry = some off) (hpc : c.pc = .spin)
    (htest : ¬ (s.entries off).msgVs.reqId > s.committed.reqId + 1) :
    Inv n l (s.setCall id { c with pc := .incRead }) := by
  obtain ⟨t, ht, hplaced⟩ := h.ticket hc hoff
  obtain ⟨-, hs, hf⟩ := RsmPc.ne_of_waits (show c.pc.waits = true by rw [hpc]; rfl)
  -- the stamp that is compared is the request's own
  rw [hplaced.filled hs hf, hplaced.next] at htest
  have hphase : s.phases[t]? = some .waiting := by rw [phases_get ht hc, Call.phase, hpc]
  refine h.goto hc hoff ht hoff ⟨RsmPc.noConfusion, RsmPc.noConfusion⟩
    (h.ordered.enter hphase (le_of_not_spinning (h.ticket_lt ht) h.committed_lt htest)) ?_
  exact hplaced.goto hs hf (fun _ hack => by cases hack) fun _ =>
    hplaced.quorum (by rw [hpc]; rfl)

/-- The first half of the increment. -/
theorem Inv.incRead {off : Nat} (h : Inv n l s) (hc : s.calls[id]? = some c)
    (hoff : c.newEntry = some off) (hpc : c.pc = .incRead) :
    Inv n l (s.setCall id { c with pc := .incWrite s.committed.reqId }) := by
  obtain ⟨t, ht, hplaced⟩ := h.ticket hc hoff
  have hphase : s.phases[t]? = some .entered := by rw [phases_get ht hc, Call.phase, hpc]
  refine h.goto hc hoff ht hoff ⟨RsmPc.noConfusion, RsmPc.noConfusion⟩ (h.ordered.read hphase) ?_
  exact hplaced.goto (by rw [hpc]; exact RsmPc.noConfusion) (by rw [hpc]; exact RsmPc.noConfusion)
    (fun _ hack => by cases hack) fun _ => hplaced.quorum (by rw [hpc]; rfl)

/-- The second half, by which the request is committed. -/
theorem Inv.incWrite {off : Nat} {v : UInt32} (h : Inv n l s) (hc : s.calls[id]? = some c)
    (hoff : c.newEntry = some off) (hpc : c.pc = .incWrite v) :
    Inv n l { s.setCall id { c with writes := c.writes ++ [.committed], pc := .returned c.ret } with
      committed := ⟨s.committed.viewId, v + 1⟩ } := by
  obtain ⟨t, ht, hplaced⟩ := h.ticket hc hoff
  have hphase : s.phases[t]? = some (.holding v.toNat) := by rw [phases_get ht hc, Call.phase, hpc]
  have hsucc : (v + 1).toNat = v.toNat + 1 := by
    -- `v` is still the counter, which is bounded by the number of entries
    refine toNat_succ ?_
    rw [(h.ordered.holding t _ hphase).2]
    exact h.committed_lt
  refine h.update hc hoff ht (fun _ _ => rfl) (fun _ => rfl) h.copies (fun _ _ => rfl) hoff
    ⟨RsmPc.noConfusion, RsmPc.noConfusion⟩ ?_ ?_
  · show Ordered (s.phases.set t .finished) (v + 1).toNat
    rw [hsucc]
    exact h.ordered.write hphase
  · exact (hplaced.goto (by rw [hpc]; exact RsmPc.noConfusion) (by rw [hpc]; exact RsmPc.noConfusion)
      (fun _ hack => by cases hack) fun _ => hplaced.quorum (by rw [hpc]; rfl)).frame
        rfl rfl (fun _ hp => hp) le_rfl

/-- **One step of a call.** -/
theorem Inv.runs {stored : Bool} {wild : UInt32} {s' : State} (h : Inv n l s) (hheld : Held s)
    (hn : n ≤ maxServerCount) (hl : l < n) (hc : s.calls[id]? = some c)
    (hok : c.idArrived s = true) (hrun : RunStep s id c stored wild s')
    (hnone : ¬ s'.FailedReturned id) : Inv n l s' := by
  have hentry := Option.eq_none_or_eq_some c.newEntry
  cases hrun with
  | lock hpc hfree =>
      have hnew := h.early id c hc (.inl hpc)
      refine h.outside hc hnew hnew fun _ => ⟨?_, ?_⟩
      · show ViewStamp.mk s.highestSeen.viewId (s.highestSeen.reqId + 1) = stampOf s.order.length
        rw [h.seen, ofNat_succ]
        rfl
      · rw [h.node]
  | place hpc hfit => exact h.place hheld (hl.trans_le (hn.trans (by decide))) hc hpc hfit
  | fail hpc =>
      have hnew := h.early id c hc (.inr hpc)
      exact h.outside hc hnew hnew fun hstore => by cases hstore
  | replicate hoff hrep => exact h.replicates hn hc hoff hok hrep
  | spin hpc => exact h
  | leaveSpin hpc htest =>
      rcases hentry with hoff | ⟨off, hoff⟩
      · exact h.outside hc hoff hoff fun hstore => by cases hstore
      · rw [hoff] at htest
        exact h.leaveSpin hc hoff hpc htest
  | incRead hpc =>
      rcases hentry with hoff | ⟨off, hoff⟩
      · exact h.outside hc hoff hoff fun hstore => by cases hstore
      · exact h.incRead hc hoff hpc
  | incWrite hpc =>
      rcases hentry with hoff | ⟨off, hoff⟩
      · -- this is the step after which a failed call has returned
        refine absurd ⟨_, c.ret, get_setCall_self (s := s) hc rfl, ?_, rfl⟩ hnone
        rw [Call.failed, hoff]
        rfl
      · exact h.incWrite hc hoff hpc

/-- **One step.** -/
theorem Inv.preserved {a : Action} {s' : State} (h : Inv n l s) (hheld : Held s)
    (hn : n ≤ maxServerCount) (hl : l < n) (hok : IdArrived s a) (hstep : Step s a s')
    (hnone : ∀ id, ¬ s'.FailedReturned id) : Inv n l s' := by
  cases hstep with
  | call data => exact h.call data
  | @run id c stored wild _ hc hrun =>
      have harrived : (s.calls[id]?).all (Call.idArrived s) = true := hok
      rw [hc] at harrived
      exact h.runs hheld hn hl hc harrived hrun (hnone id)
  | @ackStamp j off e he =>
      refine h.ack (List.subset_append_left ..) (fun p hp => ?_)
        (.inr (List.mem_append_right _ (List.mem_singleton_self _))) (h.slots off j).2
      rcases List.mem_append.mp hp with hold | hnew
      · exact h.acks p hold
      · cases List.mem_singleton.mp hnew
        exact h.copies j off e he
  | @ackNode j off _ he =>
      exact h.ack (fun _ hp => hp) h.acks (h.slots off j).1 (.inr rfl)

end Steps

/-! ## §3. All runs. -/

/-- In every state of every run, the critical section is one call's. -/
theorem held_of_reaches {n l : Nat} {s : State} {ok : State → Action → Prop}
    (h : Reaches State.step ok (.initial n l) s) : Held s :=
  h.invariant (held_initial n l) fun _ _ _ hs _ hstep => hs.preserved (step_cases hstep)

/-- **Until a failed call returns.** -/
theorem inv_of_reaches {n l : Nat} {s : State} (hn : n ≤ maxServerCount) (hl : l < n)
    (h : Reaches State.step IdArrived (.initial n l) s) (hnone : ∀ id, ¬ s.FailedReturned id) :
    Inv n l s := by
  induction h with
  | refl => exact inv_initial n l
  | tail hrun hok hstep ih =>
      -- a failed call that has returned stays so: if there is none now, there was none before
      have hcases := step_cases hstep
      exact (ih fun id hid => hnone id (hid.kept hcases)).preserved (held_of_reaches hrun) hn hl hok
        hcases hnone

/-! ## §4. The property. -/

/-- Request `r` was stored by the leader, and a quorum has acked it. -/
def Replicated (s : State) (r : Nat) : Prop :=
  ∃ c ∈ s.calls, c.next = ⟨1, UInt32.ofNat r⟩ ∧ c.failed = false
    ∧ (∃ b, s.db (vstol c.next) = some ⟨b, c.data⟩)
    ∧ (s.groupSize = 1 ∨ ∃ Q ⊆ Finset.range s.groupSize, s.groupSize / 2 + 1 ≤ Q.card
      ∧ ∀ j ∈ Q, j = s.nodeId ∨ (j, c.next) ∈ s.acks)

/-- Every request committed is replicated, and a failed call leaves nothing behind. -/
structure CommitsReplicated (s : State) : Prop where
  /-- a call whose store failed has returned an error and left nothing behind -/
  failed : ∀ (id : Nat) (c : Call) ret, s.calls[id]? = some c → c.failed = true →
    c.pc = .returned ret → ret ≠ 0 ∧ s.mutex ≠ some id ∧ c.writes = []
  committed : ∀ r, 1 ≤ r → r ≤ s.committed.reqId.toNat → Replicated s r

/-- A quorum of bits is a quorum of servers. -/
theorem Placed.quorum_acked {n l t off : Nat} {s : State} {c : Call} (h : Placed n l s t c off)
    (hacks : ∀ p ∈ s.acks, p.1 < n ∧ p.1 ≠ l) (hl : l < n) (hexit : c.pc.atExit = true) :
    n = 1 ∨ ∃ Q ⊆ Finset.range n, n / 2 + 1 ≤ Q.card ∧ ∀ j ∈ Q, j = l ∨ (j, c.next) ∈ s.acks := by
  rcases h.quorum hexit with hone | hq
  · exact .inl (by omega)
  · refine .inr ?_
    by_cases hall : ∀ b ∈ BitSet.bits c.record.bitMap, b = l ∨ (b, c.next) ∈ s.acks
    · refine ⟨_, fun b hb => Finset.mem_range.mpr ?_, reachedQuorum_iff.mp hq, hall⟩
      rcases hall b hb with rfl | hack
      · exact hl
      · exact (hacks _ hack).1
    · -- a 0 was read for the id of `j`; then `j` and the leader are a majority of three
      push Not at hall
      obtain ⟨b, hb, hne, hnot⟩ := hall
      rcases h.bits b hb with heq | hack | ⟨hsmall, j, hack⟩
      · exact absurd heq hne
      · exact absurd hack hnot
      · obtain ⟨hj, hjl⟩ := hacks _ hack
        refine ⟨{l, j}, fun k hk => Finset.mem_range.mpr ?_, ?_, fun k hk => ?_⟩
        · rcases Finset.mem_insert.mp hk with rfl | hkj
          · exact hl
          · rw [Finset.mem_singleton.mp hkj]
            exact hj
        · rw [Finset.card_pair (Ne.symm hjl)]
          omega
        · rcases Finset.mem_insert.mp hk with rfl | hkj
          · exact .inl rfl
          · rw [Finset.mem_singleton.mp hkj]
            exact .inr hack

/-- A call that has committed has left the polling loop. -/
theorem Call.atExit_of_finished {c : Call} (h : c.phase = .finished) : c.pc.atExit = true := by
  unfold Call.phase at h
  split at h
  next => cases h
  next => cases h
  next hpc => rw [hpc]; rfl
  next => cases h

/-- **What is committed is replicated.** -/
theorem Inv.replicated {n l r : Nat} {s : State} (h : Inv n l s) (hl : l < n) (hr : 1 ≤ r)
    (hle : r ≤ s.committed.reqId.toNat) : Replicated s r := by
  obtain ⟨t, rfl⟩ : ∃ t, r = t + 1 := ⟨r - 1, by omega⟩
  have hlt : t < s.order.length := by
    have := h.ordered.le
    rw [State.phases, List.length_map] at this
    omega
  have ht : s.order[t]? = some s.order[t] := List.getElem?_eq_getElem hlt
  obtain ⟨c, off, hc, hoff, hplaced⟩ := h.placed t _ ht
  have hfinished : c.phase = .finished :=
    (h.ordered.finished t _ (phases_get ht hc)).mpr (Nat.lt_of_succ_le hle)
  refine ⟨c, List.mem_of_getElem? hc, hplaced.next,
    (Bool.not_eq_true _).mp (Call.not_failed hoff), hplaced.next ▸ hplaced.stored, ?_⟩
  rw [h.size, h.node]
  exact hplaced.quorum_acked h.acks hl (Call.atExit_of_finished hfinished)

/-! ### A failed call can return. -/

section Failed
variable {s s' : State} {id : Nat} {c : Call}

theorem setCall_get (hc : s.calls[id]? = some c) (c' : Call) :
    (s.setCall id c').calls[id]? = some c' := get_setCall_self hc rfl

/-- A step of one call is a run. -/
theorem reaches_run (hc : s.calls[id]? = some c) (hnone : c.newEntry = none)
    (h : s.run id c true 0 = some s') : Reaches State.step IdArrived s s' := by
  have hok : IdArrived s (.run id true 0) := by
    show (s.calls[id]?).all (Call.idArrived s) = true
    rw [hc, Option.all_some, Call.idArrived, hnone]
    cases c.pc <;> rfl
  have hstep : s.step (.run id true 0) = some s' := by
    show (s.calls[id]?).bind _ = _
    rw [hc]
    exact h
  exact Reaches.single hok hstep

/-- A call whose store failed can return from its last step. -/
theorem returns_of_incWrite {v : UInt32} (hc : s.calls[id]? = some c) (hnone : c.newEntry = none)
    (hpc : c.pc = .incWrite v) :
    ∃ s', Reaches State.step IdArrived s s' ∧ s'.FailedReturned id := by
  refine ⟨_, reaches_run hc hnone (by rw [State.run, hpc]), _, c.ret,
    get_setCall_self (s := s) hc rfl, ?_, rfl⟩
  rw [Call.failed, hnone]
  rfl

/-- And from the one before it. -/
theorem returns_of_incRead (hc : s.calls[id]? = some c) (hnone : c.newEntry = none)
    (hpc : c.pc = .incRead) :
    ∃ s', Reaches State.step IdArrived s s' ∧ s'.FailedReturned id := by
  obtain ⟨s', hs', hret⟩ := returns_of_incWrite
    (setCall_get hc { c with pc := .incWrite s.committed.reqId }) hnone rfl
  exact ⟨s', (reaches_run hc hnone (by rw [State.run, hpc])).trans hs', hret⟩

/-- What is read through the pointer may be 0, which is not above anything. -/
theorem returns_of_spin (hc : s.calls[id]? = some c) (hnone : c.newEntry = none)
    (hpc : c.pc = .spin) :
    ∃ s', Reaches State.step IdArrived s s' ∧ s'.FailedReturned id := by
  have hrun : s.run id c true 0 = some (s.setCall id { c with pc := .incRead }) := by
    rw [State.run, hpc, hnone]
    exact if_neg (UInt32.not_lt.mpr (UInt32.zero_le))
  obtain ⟨s', hs', hret⟩ := returns_of_incRead (setCall_get hc { c with pc := .incRead }) hnone rfl
  exact ⟨s', (reaches_run hc hnone hrun).trans hs', hret⟩

/-- A call whose store failed can return, from wherever it is. -/
theorem State.Failed.returns (h : s.Failed id) :
    ∃ s', Reaches State.step IdArrived s s' ∧ s'.FailedReturned id := by
  obtain ⟨c, hc, hfailed⟩ := h
  have hsplit := hfailed
  rw [Call.failed, Bool.and_eq_true, Option.isNone_iff_eq_none] at hsplit
  obtain ⟨hexit, hnone⟩ := hsplit
  cases hpc : c.pc with
  | spin => exact returns_of_spin hc hnone hpc
  | incRead => exact returns_of_incRead hc hnone hpc
  | incWrite v => exact returns_of_incWrite hc hnone hpc
  | returned ret => exact ⟨s, .refl, c, ret, hc, hfailed, hpc⟩
  | _ =>
      rw [hpc] at hexit
      cases hexit

end Failed

/-- A failed call that has returned did not release the mutex. -/
theorem not_commitsReplicated {s : State} {id : Nat} (hheld : Held s) (h : s.FailedReturned id) :
    ¬ CommitsReplicated s := by
  intro hcommits
  obtain ⟨c, ret, hc, hfailed, hret⟩ := h
  exact (hcommits.failed id c ret hc hfailed hret).2.1 (hheld id c hc (.inr hfailed))

/-- **What `rsm_op` commits.**  Any number of calls, in any interleaving, with any of their
stores failing: the property holds in a state exactly when no call whose store failed has
returned.  Once a store has failed the mutex stays locked in every continuation, and there
is one in which the call returns and the property is lost. -/
theorem rsm_op_commits_iff {n l : Nat} (hn : n ≤ maxServerCount) (hl : l < n) {s : State}
    (hs : Reaches State.step IdArrived (.initial n l) s) :
    (CommitsReplicated s ↔ ¬ ∃ id, s.FailedReturned id)
    ∧ ∀ id, s.Failed id →
      (∀ s', Reaches State.step (fun _ _ => True) s s' → s'.mutex = some id)
      ∧ ∃ s', Reaches State.step IdArrived s s' ∧ ¬ CommitsReplicated s' := by
  refine ⟨⟨fun hcommits ⟨id, hid⟩ => ?_, fun hnone => ⟨fun id c ret hc hfailed hret => ?_,
    fun r hr hle => ?_⟩⟩, fun id hid => ⟨fun s' hs' => ?_, ?_⟩⟩
  · exact not_commitsReplicated (held_of_reaches hs) hid hcommits
  · exact absurd ⟨id, c, ret, hc, hfailed, hret⟩ hnone
  · exact (inv_of_reaches hn hl hs (not_exists.mp hnone)).replicated hl hr hle
  · exact mutex_of_failed (held_of_reaches hs) hid hs'
  · obtain ⟨s', hs', hret⟩ := hid.returns
    exact ⟨s', hs', not_commitsReplicated (held_of_reaches (hs.trans hs')) hret⟩

/-! ## §5. Runs. -/

/-- `k` steps of the first call, all stores succeeding. -/
def firstCall (k : Nat) : List Action := List.replicate k (.run 0 true 0)

/-- Three servers, leader 0: one request, acked by server 1. -/
def ackedRun : List Action :=
  [.call [65]] ++ firstCall 8 ++ [.ackStamp 1 0, .ackNode 1 0] ++ firstCall 13 ++ firstCall 3

/-- The first store fails. -/
def failedRun : List Action := [.call [65], .run 0 true 0, .run 0 false 0]

/-- Three servers: a commit, and a failed store that is never one. -/
theorem rsm_op_commits_iff_threeServers :
    (∃ s, Reaches State.step IdArrived (.initial 3 0) s ∧ s.committed = ⟨1, 1⟩
      ∧ CommitsReplicated s)
    ∧ ∃ s, Reaches State.step IdArrived (.initial 3 0) s ∧ s.Failed 0
      ∧ ∀ s', Reaches State.step (fun _ _ => True) s s' → s'.mutex = some 0 := by
  constructor
  · obtain ⟨s, hs, hv⟩ := exists_reaches_of_execOk State.step IdArrived (.initial 3 0) ackedRun
      (fun s => (s.committed, s.calls.any Call.failed)) (v := (⟨1, 1⟩, false)) (by decide +kernel)
    obtain ⟨hcommitted, hnone⟩ := Prod.mk.inj hv
    refine ⟨s, hs, hcommitted, (rsm_op_commits_iff (by decide) (by decide) hs).1.mpr ?_⟩
    rintro ⟨id, c, ret, hc, hfailed, -⟩
    exact List.any_eq_false.mp hnone c (List.mem_of_getElem? hc) hfailed
  · obtain ⟨s, hs, hv⟩ := exists_reaches_of_execOk State.step IdArrived (.initial 3 0) failedRun
      (fun s => (s.calls[0]?).map Call.failed) (v := some true) (by decide +kernel)
    obtain ⟨c, hc, hfailed⟩ := Option.map_eq_some_iff.mp hv
    exact ⟨s, hs, ⟨c, hc, hfailed⟩,
      ((rsm_op_commits_iff (by decide) (by decide) hs).2 0 ⟨c, hc, hfailed⟩).1⟩

/-- Four servers, leader 1: the stamp of server 2's ack is seen before its id. -/
def tornRun : List Action :=
  [.call [65]] ++ firstCall 9 ++ [.ackStamp 2 0] ++ firstCall 13 ++ [.ackNode 2 0] ++ firstCall 13
    ++ firstCall 3

/-- **Requests that are committed and not replicated.**  The only request of a group of
three: its store fails, the call increments `committed`, and returns with the mutex
locked.  Without any failure, in a group of four: the only ack is counted twice. -/
theorem unreplicated_committed :
    (∃ s, Reaches State.step IdArrived (.initial 3 0) s
      ∧ s.mutex = some 0 ∧ s.committed = ⟨1, 1⟩ ∧ s.db (vstol ⟨1, 1⟩) = none
      ∧ s.calls.map Call.pc = [.returned 1] ∧ ¬ CommitsReplicated s)
    ∧ ∃ s, Reaches State.step (fun _ _ => True) (.initial 4 1) s
      ∧ s.committed = ⟨1, 1⟩ ∧ s.acks = [(2, ⟨1, 1⟩)] ∧ s.calls.any Call.failed = false
      ∧ ¬ CommitsReplicated s := by
  constructor
  · obtain ⟨s, hs, hv⟩ := exists_reaches_of_execOk State.step IdArrived (.initial 3 0)
      (failedRun ++ firstCall 3)
      (fun s => (s.mutex, s.committed, s.db (vstol ⟨1, 1⟩), s.calls.map Call.pc))
      (v := (some 0, ⟨1, 1⟩, none, [.returned 1])) (by decide +kernel)
    simp only [Prod.mk.injEq] at hv
    obtain ⟨hmutex, hcommitted, hdb, hcalls⟩ := hv
    refine ⟨s, hs, hmutex, hcommitted, hdb, hcalls, fun hcommits => ?_⟩
    obtain ⟨c, -, hnext, -, ⟨b, hstored⟩, -⟩ :=
      hcommits.committed 1 (Nat.le_refl 1) (by rw [hcommitted]; decide)
    rw [hnext] at hstored
    cases hdb.symm.trans hstored
  · obtain ⟨s, hs, hv⟩ := exists_reaches_of_execOk State.step (fun _ _ => True) (.initial 4 1)
      tornRun (fun s => (s.committed, s.acks, s.calls.any Call.failed, s.groupSize, s.nodeId))
      (v := (⟨1, 1⟩, [(2, ⟨1, 1⟩)], false, 4, 1)) (by decide +kernel)
    simp only [Prod.mk.injEq] at hv
    obtain ⟨hcommitted, hacks, hnone, hsize, hnode⟩ := hv
    refine ⟨s, hs, hcommitted, hacks, hnone, fun hcommits => ?_⟩
    obtain ⟨c, -, -, -, -, hquorum⟩ :=
      hcommits.committed 1 (Nat.le_refl 1) (by rw [hcommitted]; decide)
    rw [hsize, hnode, hacks] at hquorum
    rcases hquorum with hone | ⟨Q, -, hcard, hQ⟩
    · cases hone
    · -- a quorum of four among the leader and server 2
      have hsub : Q ⊆ {1, 2} := fun j hj => by
        rcases hQ j hj with rfl | hack
        · decide
        · rw [(Prod.mk.inj (List.mem_singleton.mp hack)).1]
          decide
      have hle : Q.card ≤ 2 := Finset.card_le_card hsub
      omega

end RdmaPaxos.SharedMemory
