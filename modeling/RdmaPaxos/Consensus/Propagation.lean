/-
  RdmaPaxos.Consensus.Propagation
  ───────────────────────────────
  **FROM ONE CALL TO THE NEXT: HOW THE COMMIT POINT TRAVELS.**

  A call samples `highest_committed_vs` after it has left the critical section
  (line 179), without the lock.  If request `k` had returned before call `k'`
  was made, its increment is behind the sample, and no increment is ever taken
  back; so the entry of call `k'`, and every copy of it that is posted to a
  follower, carries a commit point that covers request `k` (`Carries`).  A
  follower that is through with the entry has applied up to there.

  §1  what it means to carry a commit point;
  §2  what a step leaves of an entry in use;
  §3  every step keeps it;
  §4  the followers.
-/
import RdmaPaxos.Consensus.CommitOrder

namespace RdmaPaxos

open RdmaPaxos.ByteMemory RdmaPaxos.Ticket RdmaPaxos.Run

/-! ## §1. Carrying a commit point. -/

/-- The stamp, as a commit point, covers request `k` (counted from 0). -/
def ViewStamp.Covers (v : ViewStamp) (k : Nat) : Prop := v.viewId = 1 ∧ k < v.reqId.toNat

instance (v : ViewStamp) (k : Nat) : Decidable (v.Covers k) := inferInstanceAs (Decidable (_ ∧ _))

/-- It is then at least the stamp of that request. -/
theorem ViewStamp.Covers.comp {v : ViewStamp} {k : Nat} (h : v.Covers k) (hk : k + 1 < 2 ^ 32) :
    0 ≤ viewStampComp v (stampOf k) := by
  obtain ⟨view, req⟩ := v
  obtain ⟨hview, hlt⟩ := h
  obtain rfl : view = 1 := hview
  have hreq : (stampOf k).reqId.toNat ≤ req.toNat := by
    rw [stampOf_reqId hk]
    exact hlt
  have h1 : ¬ (1 : UInt32) < 1 := by decide
  simp only [viewStampComp, show (stampOf k).viewId = 1 from rfl, gt_iff_lt, h1, if_false,
    UInt32.lt_iff_toNat_lt]
  split_ifs <;> omega

/-- Request `k` is committed, and call `k'` carries a commit point that covers
it: in its entry, from line 179 on until it returns, and in every copy posted. -/
structure Carries (l k k' : Nat) (w : World) : Prop where
  committed : (w.nodes l).committed.Covers k
  entry : ∀ c, w.calls[k']? = some c → c.pc.live = true → 1 ≤ c.pc.stage →
    (readVs (w.nodes l).log.entries (c.entry + offCanbeExed)).Covers k
  copies : ∀ i e, w.entryWrites k' i = some e → (readVs e.byte offCanbeExed).Covers k

/-! ## §2. What a step leaves of an entry in use. -/

section Steps
variable {l id : Nat} {w w' : World} {c : Call}

/-- A call writes only into its own entry. -/
theorem Tickets.call_entries (h : Tickets l w) (hc : w.calls[id]? = some c) {stored : Bool}
    (hstep : CallStep w id c stored w') {x : Nat}
    (hx : x < c.entry ∨ c.entry + c.req.entryLen ≤ x) :
    (w'.nodes l).log.entries x = (w.nodes l).log.entries x := by
  obtain rfl : l = c.owner := (h.call id c hc).owner.symm
  have hlen : c.req.entryLen = 216 + (c.req.data.size + 1) := rfl
  cases hstep with
  | sample =>
      refine setNode_field (fun nd => nd.log.entries x) fun _ => writeVs_outside _ _ ?_
      show x < c.entry + 176 ∨ c.entry + 176 + 8 ≤ x
      omega
  | fill =>
      refine setNode_field (fun nd => nd.log.entries x) fun _ => fillEntry_outside _ _ _ _ _ ?_
      show x < c.entry + 168 ∨ c.entry + 212 + c.req.data.size ≤ x
      omega
  | mark hpc =>
      have hmark := h.markEntry_eq hc (by rw [hpc]; rfl)
      generalize markEntry (w.nodes c.owner).log.entries c.entry = m at hmark ⊢
      refine setNode_field (fun nd => nd.log.entries x) fun _ => ?_
      show m x = _
      rw [hmark]
      exact write_outside _ _ (by omega)
  | incWrite => exact setNode_field (fun nd => nd.log.entries x) fun _ => rfl
  | _ => rfl

/-- Every step leaves the entry of a call in use alone, apart from its ack slots
and from the call's own steps. -/
theorem Tickets.entry_kept (h : Tickets l w) {a : Action} (hok : OneProcess l w a)
    (hkept : EntriesKept l w a) (hstep : step w a = some w') (hc : w.calls[id]? = some c)
    (hlive : c.pc.live = true) (hother : ∀ stored, a ≠ .call id stored) {x : Nat}
    (hlo : c.entry + offMsgVs ≤ x) (hhi : x < c.entry + c.req.entryLen) :
    (w'.nodes l).log.entries x = (w.nodes l).log.entries x := by
  have hmem := List.mem_of_getElem? hc
  cases step_cases hstep with
  | start | joinReply => exact setNode_field (fun nd => nd.log.entries x) fun heq => absurd heq hok
  | crash | connect | destroy =>
      exact setNode_field (fun nd => nd.log.entries x) fun heq => by subst heq; rfl
  | relaunch _ hlead =>
      refine setNode_field (fun nd => nd.log.entries x) fun heq => ?_
      subst heq
      exact absurd h.leads hlead
  | @submit i q =>
      obtain ⟨rfl, -⟩ := hok
      have hclear := hkept c hmem hlive
      refine setNode_field (w := w) (fun nd => nd.log.entries x) fun _ => ?_
      show ((w.nodes i).alloc q).log.entries x = _
      rw [alloc_log, allocEntry_entries]
      refine write_outside _ _ ?_
      have hadd : logAddNewEntry (w.nodes i).log = (allocEntry (w.nodes i).log q.data.size).1 := rfl
      have hlen : q.entryLen = 216 + (q.data.size + 1) := rfl
      show x < logAddNewEntry (w.nodes i).log + 192 ∨ logAddNewEntry (w.nodes i).log + 192 + 8 ≤ x
      omega
  | @call j d _ _ hd _ _ hcall =>
      -- another call, which writes into its own entry
      have hne : id ≠ j := fun heq => hother _ (by rw [heq])
      have hdlive : d.pc.live = true := by
        cases hcall with
        | _ hpc => rw [hpc]; rfl
      have happart := h.apart id j c d hne hc hd hlive hdlive
      exact h.call_entries hd hcall (by omega)
  | replica _ hrep => rw [hrep.leader_nodes h.idle h.leads]
  | deliverEntry he =>
      exact setNode_field (fun nd => nd.log.entries x) fun heq => absurd heq (h.target _ _ _ he)
  | @deliverAck k n e he =>
      refine setNode_field (w := w.setAckWrite k { e with visible := e.visible + n })
        (fun nd => nd.log.entries x) fun heq => ?_
      subst heq
      have hclear := hkept e he rfl c hmem hlive
      unfold Call.Clear at hclear
      show write (w.nodes e.dst).log.entries (e.off + e.visible) n
        (fun j => e.byte (e.visible + j)) x = (w.nodes e.dst).log.entries x
      exact write_outside _ _ (by omega)

/-! ## §3. Every step keeps it. -/

/-- The commit point only grows. -/
theorem Tickets.committed_mono (h : Tickets l w) (h' : Tickets l w') {a : Action}
    (hok : OneProcess l w a) (hstep : step w a = some w') :
    (w'.nodes l).committed.viewId = (w.nodes l).committed.viewId
      ∧ (w.nodes l).committed.reqId.toNat ≤ (w'.nodes l).committed.reqId.toNat := by
  have hsame : (w'.nodes l).committed = (w.nodes l).committed →
      (w'.nodes l).committed.viewId = (w.nodes l).committed.viewId
        ∧ (w.nodes l).committed.reqId.toNat ≤ (w'.nodes l).committed.reqId.toNat := fun heq => by
    rw [heq]
    exact ⟨rfl, Nat.le_refl _⟩
  cases step_cases hstep with
  | start | joinReply => exact hsame (setNode_field Node.committed fun heq => absurd heq hok)
  | crash | connect | destroy | relaunch =>
      exact hsame (setNode_field Node.committed fun heq => by subst heq; rfl)
  | submit => exact hsame (setNode_field (w := w) Node.committed fun heq => by subst heq; rfl)
  | @call id c _ _ hc _ _ hcall =>
      obtain rfl : l = c.owner := (h.call id c hc).owner.symm
      cases hcall with
      | sample | fill => exact hsame (setNode_field Node.committed fun _ => rfl)
      | mark =>
          generalize markEntry _ _ = m at hsame ⊢
          exact hsame (setNode_field Node.committed fun _ => rfl)
      | @incWrite _ v hpc =>
          -- the commit point is the number of increments performed, before and after
          have hcount := h.ordered.count_finished
          have hcount' := h'.ordered.count_finished
          have hle := doneCount_set_le hc (by rw [hpc]; nofun) { c with pc := .done }
          have hset : (((w.setNode c.owner { w.nodes c.owner with
              committed := ⟨(w.nodes c.owner).committed.viewId, v + 1⟩ }).setCall id
                { c with pc := .done }).nodes c.owner).committed
              = ⟨(w.nodes c.owner).committed.viewId, v + 1⟩ :=
            congrArg Node.committed (setNode_nodes_self w c.owner _)
          rw [hset] at hcount' ⊢
          refine ⟨rfl, ?_⟩
          rw [← hcount, ← hcount']
          exact hle
      | _ => exact ⟨rfl, Nat.le_refl _⟩
  | replica _ hrep => exact hsame (by rw [hrep.leader_nodes h.idle h.leads])
  | deliverEntry | deliverAck =>
      exact hsame (setNode_field Node.committed fun heq => by subst heq; rfl)

/-- The steps of call `k'` itself: line 179 copies the commit point, and nothing
later touches it. -/
theorem Carries.own_entry {k k' : Nat} (h : Carries l k k' w) (ht : Tickets l w)
    (hc : w.calls[k']? = some c) {stored : Bool} (hcall : CallStep w k' c stored w') :
    (readVs (w'.nodes l).log.entries (c.entry + offCanbeExed)).Covers k := by
  obtain rfl : l = c.owner := (ht.call k' c hc).owner.symm
  -- past line 179 the entry has carried it already
  have hpast : c.pc.live = true → 1 ≤ c.pc.stage →
      (readVs (w.nodes c.owner).log.entries (c.entry + offCanbeExed)).Covers k := h.entry c hc
  have hself : ∀ m : Mem, ((w.setNode c.owner ((w.nodes c.owner).setEntries m)).nodes
      c.owner).log.entries = m := fun m => by rw [setNode_nodes_self]; rfl
  cases hcall with
  | sample =>
      show (readVs ((w.setNode c.owner _).nodes c.owner).log.entries _).Covers k
      rw [hself, readVs_writeVs]
      exact h.committed
  | fill hpc =>
      show (readVs ((w.setNode c.owner _).nodes c.owner).log.entries _).Covers k
      rw [hself, fillEntry_canbeExed]
      exact hpast (by rw [hpc]; rfl) (by rw [hpc]; decide)
  | mark hpc =>
      have hmark := ht.markEntry_eq hc (by rw [hpc]; rfl)
      generalize markEntry (w.nodes c.owner).log.entries c.entry = m at hmark ⊢
      show (readVs ((w.setNode c.owner _).nodes c.owner).log.entries _).Covers k
      rw [hself, hmark, readVs_write_disjoint]
      · exact hpast (by rw [hpc]; rfl) (by rw [hpc]; decide)
      · refine .inl ?_
        have hlen : c.req.entryLen = 216 + (c.req.data.size + 1) := rfl
        show c.entry + 176 + 8 ≤ _
        omega
  | incWrite hpc =>
      show (readVs ((w.setNode c.owner _).nodes c.owner).log.entries _).Covers k
      rw [setNode_nodes_self]
      exact hpast (by rw [hpc]; rfl) (by rw [hpc]; exact (by decide : 1 ≤ 7))
  | store hpc | fail hpc | quorum hpc | again hpc | spin hpc | leaveSpin hpc | incRead hpc =>
      exact hpast (by rw [hpc]; rfl) (by rw [hpc]; decide)
  | skip hpc | post hpc | posted hpc =>
      exact hpast (by rw [hpc]; rfl) (by rw [hpc]; exact (by decide : 1 ≤ 4))
  | hit hpc | miss hpc | scanned hpc | ackId hpc =>
      exact hpast (by rw [hpc]; rfl) (by rw [hpc]; exact (by decide : 1 ≤ 5))

theorem Carries.entry_step {k k' : Nat} {a : Action} (h : Carries l k k' w) (ht : Tickets l w)
    (hok : OneProcess l w a) (hkept : EntriesKept l w a) (hstep : step w a = some w') :
    ∀ c, w'.calls[k']? = some c → c.pc.live = true → 1 ≤ c.pc.stage →
      (readVs (w'.nodes l).log.entries (c.entry + offCanbeExed)).Covers k := by
  intro c hc hlive hstage
  -- another thread's step: the call is as it was, and so is its entry
  have hother : (∀ stored, a ≠ .call k' stored) → w.calls[k']? = some c →
      (readVs (w'.nodes l).log.entries (c.entry + offCanbeExed)).Covers k := by
    intro hne hold
    have hlen : c.req.entryLen = 216 + (c.req.data.size + 1) := rfl
    have hsame : readVs (w'.nodes l).log.entries (c.entry + offCanbeExed)
        = readVs (w.nodes l).log.entries (c.entry + offCanbeExed) :=
      readVs_congr fun i hi => ht.entry_kept hok hkept hstep hold hlive hne
        (show c.entry + 168 ≤ c.entry + 176 + i by omega)
        (show c.entry + 176 + i < _ by omega)
    rw [hsame]
    exact h.entry c hold hlive hstage
  cases step_cases hstep with
  | submit =>
      rcases get_concat hc with ⟨-, hold⟩ | ⟨-, rfl⟩
      · exact hother nofun hold
      · exact absurd hstage (show ¬ 1 ≤ 0 by decide)
  | @call j d _ _ hd _ _ hcall =>
      obtain ⟨d', hcalls, hsame⟩ := hcall.frame hd
      rw [hcalls] at hc
      rcases get_set hc with ⟨rfl, rfl⟩ | ⟨hne, hold⟩
      · rw [hsame.entry]
        exact h.own_entry ht hd hcall
      · exact hother (fun stored heq => hne (by cases heq; rfl)) hold
  | replica _ hrep => exact hother nofun (by rw [← hrep.frame.2.1]; exact hc)
  | start | crash | joinReply | connect | destroy | relaunch | deliverEntry | deliverAck =>
      exact hother nofun hc

/-- What is posted is the entry as it is in the leader's log. -/
theorem Carries.copies_step {k k' : Nat} {a : Action} (h : Carries l k k' w) (ht : Tickets l w)
    (hstep : step w a = some w') :
    ∀ i e, w'.entryWrites k' i = some e → (readVs e.byte offCanbeExed).Covers k := by
  intro i e he
  cases step_cases hstep with
  | @call j d _ _ hd _ _ hcall =>
      cases hcall with
      | @post _ _ region hpc =>
          rcases setEntryWrite_get (w := w) he with ⟨rfl, -, rfl⟩ | hold
          · obtain rfl : l = d.owner := (ht.call _ d hd).owner.symm
            -- a copy of the entry as it is in the leader's log at this moment
            have hbyte : readVs (postEntry (w.nodes d.owner).log.entries d region).byte offCanbeExed
                = readVs (w.nodes d.owner).log.entries (d.entry + offCanbeExed) :=
              readVs_congr fun i _ => congrArg _ (Nat.add_assoc ..).symm
            rw [hbyte]
            exact h.entry d hd (by rw [hpc]; rfl) (by rw [hpc]; exact (by decide : 1 ≤ 4))
          · exact h.copies i e hold
      | _ => exact h.copies i e he
  | replica _ hrep => exact h.copies i e (by rw [← hrep.frame.2.2]; exact he)
  | @deliverEntry _ _ _ e₀ hold =>
      rcases setEntryWrite_get (w := w) he with ⟨rfl, rfl, rfl⟩ | hkeep
      · exact h.copies _ e₀ hold
      · exact h.copies i e hkeep
  | start | crash | joinReply | connect | destroy | relaunch | submit | deliverAck =>
      exact h.copies i e he

/-- **One step.** -/
theorem Carries.preserved {k k' : Nat} {a : Action} (h : Carries l k k' w) (ht : Tickets l w)
    (hok : OneProcess l w a) (hkept : EntriesKept l w a) (hstep : step w a = some w') :
    Carries l k k' w' := by
  obtain ⟨hview, hle⟩ := ht.committed_mono (ht.preserved hok hkept hstep) hok hstep
  exact ⟨⟨hview.trans h.committed.1, lt_of_lt_of_le h.committed.2 hle⟩,
    h.entry_step ht hok hkept hstep, h.copies_step ht hstep⟩

/-! ### The second call is made. -/

/-- The leader is in view 1, and only calls that were made have posted writes. -/
structure Begun (l : Nat) (w : World) : Prop where
  view : (w.nodes l).committed.viewId = 1
  posted : ∀ id i e, w.entryWrites id i = some e → id < w.calls.length

theorem Begun.preserved {a : Action} (h : Begun l w) (ht : Tickets l w) (ht' : Tickets l w')
    (hok : OneProcess l w a) (hstep : step w a = some w') : Begun l w' := by
  refine ⟨(ht.committed_mono ht' hok hstep).1.trans h.view, fun id i e he => ?_⟩
  cases step_cases hstep with
  | submit =>
      show id < (w.calls ++ [_]).length
      rw [List.length_append]
      exact Nat.lt_of_lt_of_le (h.posted id i e he) (Nat.le_add_right _ _)
  | @call j d _ _ hd _ _ hcall =>
      obtain ⟨d', hcalls, -⟩ := hcall.frame hd
      rw [hcalls, List.length_set]
      cases hcall with
      | post =>
          rcases setEntryWrite_get (w := w) he with ⟨rfl, -, -⟩ | hold
          · exact (List.getElem?_eq_some_iff.mp hd).1
          · exact h.posted id i e hold
      | _ => exact h.posted id i e he
  | replica _ hrep =>
      rw [hrep.frame.2.1]
      exact h.posted id i e (by rw [← hrep.frame.2.2]; exact he)
  | deliverEntry hold =>
      rcases setEntryWrite_get (w := w) he with ⟨rfl, rfl, rfl⟩ | hkeep
      · exact h.posted _ _ _ hold
      · exact h.posted id i e hkeep
  | start | crash | joinReply | connect | destroy | relaunch | deliverAck => exact h.posted id i e he

theorem Begun.booted {n : Nat} (hl : l < n) : Begun l (World.booted n l) := by
  refine ⟨?_, fun id i e he => by cases he⟩
  rw [booted_member hl]
  rfl

/-- Call `k` has returned after its increment. -/
def World.Returned (w : World) (k : Nat) : Prop := ∃ c, w.calls[k]? = some c ∧ c.pc = .done

/-- A call made after request `k` has returned. -/
theorem Carries.submit {k : Nat} {q : Request} (ht : Tickets l w) (hb : Begun l w)
    (hdone : w.Returned k) (hstep : step w (.submit l q) = some w') :
    Carries l k w.calls.length w' := by
  obtain ⟨c, hc, hpc⟩ := hdone
  have hphase : c.pc.phase = .finished := by rw [hpc]; rfl
  cases step_cases hstep with
  | submit =>
      refine ⟨?_, fun d hd _ hstage => ?_, fun i e he => ?_⟩
      · show ((w.setNode l ((w.nodes l).alloc q)).nodes l).committed.Covers k
        rw [setNode_nodes_self]
        exact ⟨hb.view, (ht.ordered.finished k _ (phases_get hc)).mp hphase⟩
      · rcases get_concat hd with ⟨hlt, -⟩ | ⟨-, rfl⟩
        · exact absurd hlt (Nat.lt_irrefl _)
        · exact absurd hstage (show ¬ 1 ≤ 0 by decide)
      · exact absurd (hb.posted _ i e he) (Nat.lt_irrefl _)

end Steps

/-! ## §4. The followers. -/

/-- One process leads, on node `l`, no log wraps, and stores succeed; other nodes
may come and go. -/
def OneLap (l : Nat) (w : World) (a : Action) : Prop :=
  OneProcess l w a ∧ SoleLeader l 1 w a ∧ StoresSucceed a

instance : (a : Action) → Decidable (StoresSucceed a)
  | .call .. | .replica .. => inferInstanceAs (Decidable (_ = _))
  | .start .. | .crash .. | .joinReply .. | .connect .. | .destroy .. | .relaunch ..
  | .submit .. | .deliverEntry .. | .deliverAck .. => isTrue trivial

instance (l : Nat) (w : World) (a : Action) : Decidable (OneLap l w a) :=
  inferInstanceAs (Decidable (_ ∧ _ ∧ _))

/-- Between accepting an entry and the end of its turn of the loop. -/
def ReplicaPc.working : ReplicaPc → Bool
  | .ack _ | .commit _ | .apply _ _ _ => true
  | _ => false

/-- How many entries the replica thread is through with. -/
def Node.finished (nd : Node) : Nat :=
  if nd.pc.working then nd.accepted.length - 1 else nd.accepted.length

theorem finished_working (nd : Node) (h : nd.pc.working = true) :
    nd.finished = nd.accepted.length - 1 := if_pos h

theorem finished_idle (nd : Node) (h : nd.pc.working = false) :
    nd.finished = nd.accepted.length := if_neg (by rw [h]; nofun)

/-- A follower that is through with entry `k'` has applied record `k`. -/
def Passed (l k k' : Nat) (w : World) : Prop :=
  ∀ f, f ≠ l → k' < (w.nodes f).finished → k < (w.nodes f).applied.length

section Followers
variable {T : Request → Prop} {n l p k k' : Nat} {w w' : World} {a : Action}

/-- As long as the log does not wrap, nothing is written over an entry. -/
theorem Inv.entriesKept (h : Inv T l p w) (hok : SoleLeader l p w a) (hstep : step w a = some w') :
    EntriesKept l w a := by
  cases step_cases hstep with
  | submit _ _ _ hfit =>
      obtain ⟨rfl, hp, hwrap⟩ := hok
      intro c hmem _
      obtain ⟨id, hc⟩ := List.mem_iff_getElem?.mp hmem
      have hlt : id < w.requests.length := by
        rw [length_requests]
        exact (List.getElem?_eq_some_iff.mp hc).1
      obtain ⟨hentry, -, -⟩ := allocEntry_pos (h.leader hp) hwrap hfit
      have hle := startOf_add_le (requests_get hc) hlt
      rw [length_requests] at hle
      refine .inr ?_
      rw [hentry, (h.call id c hc).entry]
      exact hle
  | @deliverAck i m e he _ _ hm =>
      intro e' he' hdst c hmem _
      obtain rfl : e = e' := Option.some.inj (he.symm.trans he')
      obtain ⟨id, hc⟩ := List.mem_iff_getElem?.mp hmem
      have hack := h.ack e (List.mem_of_getElem? he)
      obtain ⟨j, q, hq, hoff, -⟩ := hack.slot
      have hsrc := hack.src
      unfold maxServerCount at hsrc
      unfold acceptAckSize at hoff hm
      have hqlen : q.entryLen = 216 + (q.data.size + 1) := rfl
      unfold Call.Clear
      rw [(h.call id c hc).entry]
      -- the ack lies in a slot of entry `j`
      rcases Nat.lt_trichotomy j id with hlow | rfl | hhigh
      · have hle := startOf_add_le hq hlow
        refine .inl ?_
        show _ ≤ _ + 168
        omega
      · refine .inl ?_
        show _ ≤ _ + 168
        omega
      · have hle := startOf_add_le (requests_get hc) hhigh
        exact .inr (by omega)
  | start | crash | joinReply | connect | destroy | relaunch | call | replica | deliverEntry =>
      trivial

/-- The end of the work on entry `k'`: whatever it let the follower apply has been
applied. -/
theorem Passed.through (h : Passed l k k' w) (hc : Carries l k k' w) {f j x : Nat} {e : EntryWrite}
    (hf : f ≠ l) (he : w.writesTo f j = some e) (hx : readVs e.byte offCanbeExed = ⟨1, UInt32.ofNat x⟩)
    (hx32 : x < 2 ^ 32) (hfin : (w.nodes f).finished = j) (happ : x ≤ (w.nodes f).applied.length)
    (hlt : k' < j + 1) : k < (w.nodes f).applied.length := by
  rcases Nat.lt_succ_iff_lt_or_eq.mp hlt with hold | rfl
  · exact h f hf (by omega)
  · have hcov := (hc.copies f e he).2
    rw [hx] at hcov
    have hnat : (UInt32.ofNat x).toNat = x := UInt32.toNat_ofNat_of_lt' hx32
    have hcov' : k < (UInt32.ofNat x).toNat := hcov
    omega

/-- One node changes. -/
theorem Passed.setNode (h : Passed l k k' w) {v : World} {i : Nat} {nd : Node}
    (hv : v.nodes = w.nodes) (hown : i ≠ l → k' < nd.finished → k < nd.applied.length) :
    Passed l k k' (v.setNode i nd) := by
  intro f hf hlt
  rcases eq_or_ne f i with rfl | hne
  · rw [setNode_nodes_self] at hlt ⊢
    exact hown hf hlt
  · rw [setNode_nodes_ne _ _ _ hne, hv] at hlt ⊢
    exact h f hf hlt

/-- One node changes, but finishes nothing. -/
theorem Passed.keep (h : Passed l k k' w) {v : World} {i : Nat} {nd : Node}
    (hv : v.nodes = w.nodes) (hfin : nd.finished = (w.nodes i).finished)
    (hpre : (w.nodes i).applied <+: nd.applied) : Passed l k k' (v.setNode i nd) :=
  h.setNode hv fun hi hlt =>
    Nat.lt_of_lt_of_le (h i hi (by rw [← hfin]; exact hlt)) hpre.length_le

theorem Passed.replicaStep (h : Passed l k k' w) (hc : Carries l k k' w) (hinv : Inv T l p w)
    {i hash : Nat} {stored : Bool} (hrep : ReplicaStep w i stored hash w') : Passed l k k' w' := by
  cases hrep with
  | leader => exact h
  | measure hpc =>
      refine h.keep rfl ?_ (List.prefix_refl _)
      rw [finished_idle (w.nodes i) (by rw [hpc]; rfl), finished_idle _ rfl]
  | poll hpc | marker hpc =>
      refine h.keep rfl ?_ (List.prefix_refl _)
      rw [finished_idle (w.nodes i) (by rw [hpc]; rfl), finished_idle]
      dsimp only
      split <;> rfl
  | accept hpc | acceptUnstored hpc =>
      refine h.keep rfl ?_ (List.prefix_refl _)
      rw [finished_idle (w.nodes i) (by rw [hpc]; rfl), finished_working _ rfl]
      show (_ ++ [_]).length - 1 = _
      rw [List.length_append]
      rfl
  | unconnected hpc =>
      refine h.keep rfl ?_ (List.prefix_refl _)
      rw [finished_working (w.nodes i) (by rw [hpc]; rfl), finished_working _ rfl]
  | ack hpc =>
      refine h.keep (v := { w with ackWrites := _ }) rfl ?_ (List.prefix_refl _)
      rw [finished_working (w.nodes i) (by rw [hpc]; rfl), finished_working _ rfl]
  | @commit _ _ entry hpc =>
      obtain ⟨j, hj⟩ := hinv.worksOn (.inr (.inl hpc))
      obtain ⟨e, x, he, -, -, hx32, hbyte, hmem⟩ := hinv.canbeExed hj
      have hfin := finished_working (w.nodes i) (by rw [hpc]; rfl)
      rw [hj.1] at hfin
      refine h.setNode rfl fun hi hown => ?_
      by_cases hpos : viewStampComp (readVs (w.nodes i).log.entries (entry + offCanbeExed))
          (w.nodes i).committed > 0
      · rw [if_pos hpos, finished_working _ rfl] at hown
        rw [if_pos hpos]
        exact h i hi (by rw [hfin, ← hj.1]; exact hown)
      · -- the entry's commit point had been reached before
        rw [if_neg hpos, finished_idle _ rfl] at hown
        rw [if_neg hpos]
        have happ := hinv.applied i hi
        have hcommit := (commitOk_iff (by rw [hpc]; nofun)).mp happ.commit
        have hcommitted : (w.nodes i).committed = ⟨1, (w.nodes i).committed.reqId⟩ := by
          rw [← happ.view]
        rw [hmem, hcommitted, gt_iff_lt, viewStampComp_viewOne, hcommit,
          UInt32.toNat_ofNat_of_lt' hx32] at hpos
        exact h.through hc hi he hbyte hx32 hfin (Nat.le_of_not_lt hpos) (by rw [← hj.1]; exact hown)
  | apply hpc =>
      refine h.keep rfl ?_ (List.prefix_append _ _)
      rw [finished_working (w.nodes i) (by rw [hpc]; rfl), finished_working _ rfl]
  | @applied _ _ entry index last hpc hle =>
      have hfin := finished_working (w.nodes i) (by rw [hpc]; rfl)
      refine h.setNode rfl fun hi hown => ?_
      rw [finished_idle _ rfl] at hown
      have hcommit := (hinv.applied i hi).commit
      unfold CommitOk at hcommit
      rw [hpc] at hcommit
      obtain ⟨j, e, x, hj, he, hx, hxj, -, rfl, rfl, -⟩ := hcommit
      have hx32 : x < 2 ^ 32 := by
        have hshort := hinv.length_lt
        have hacc := (hinv.replica i fun hboth => hi hboth.1).accepted_le
        rw [length_requests] at hacc
        omega
      rw [hj] at hfin
      exact h.through hc hi he hx hx32 hfin (by omega) (by rw [← hj]; exact hown)

/-- **One step.** -/
theorem Passed.preserved (h : Passed l k k' w) (hc : Carries l k k' w) (hinv : Inv T l p w)
    (hstep : step w a = some w') : Passed l k k' w' := by
  cases step_cases hstep with
  | start => exact h.setNode rfl fun _ hlt => absurd hlt (Nat.not_lt_zero k')
  | relaunch _ _ hpc =>
      refine h.setNode rfl fun _ hlt => ?_
      rw [finished_idle (Node.relaunch _) (by show (World.nodes w _).pc.working = false; rw [hpc]; rfl)]
        at hlt
      exact absurd hlt (Nat.not_lt_zero k')
  | crash | joinReply | connect | destroy => exact h.keep rfl rfl (List.prefix_refl _)
  | @submit i q =>
      exact h.keep (v := { w with calls := w.calls ++ [(w.nodes i).newCall i q] }) rfl rfl
        (List.prefix_refl _)
  | call _ _ _ hcall =>
      intro f hf
      have hsame := hcall.field (fun nd => (nd.finished, nd.applied)) (fun _ _ => rfl)
        (fun _ _ => rfl) f
      obtain ⟨hfin, happ⟩ := Prod.mk.inj hsame
      rw [hfin, happ]
      exact h f hf
  | replica _ hrep => exact h.replicaStep hc hinv hrep
  | deliverEntry | deliverAck => exact h.keep rfl rfl (List.prefix_refl _)

/-- A request that has just been made is in nobody's log. -/
theorem Passed.submit (hinv : Inv T l p w) {i : Nat} {q : Request}
    (hstep : step w (.submit i q) = some w') : Passed l k w.calls.length w' := by
  have hfresh : Passed l k w.calls.length w := by
    intro f hf hlt
    have hacc := (hinv.replica f fun hboth => hf hboth.1).accepted_le
    rw [length_requests] at hacc
    have hle : (w.nodes f).finished ≤ (w.nodes f).accepted.length := by
      unfold Node.finished
      split <;> omega
    omega
  cases step_cases hstep with
  | submit =>
      exact hfresh.keep (v := { w with calls := w.calls ++ [(w.nodes i).newCall i q] }) rfl rfl
        (List.prefix_refl _)

/-- What holds throughout such a run. -/
structure LapInv (T : Request → Prop) (l : Nat) (w : World) : Prop where
  inv : Inv T l 1 w
  tickets : Tickets l w
  begun : Begun l w
  stored : ∀ j, Stored (w.db j) (w.nodes j)

theorem LapInv.kept (h : LapInv T l w) (hok : OneLap l w a) (hstep : step w a = some w') :
    EntriesKept l w a := h.inv.entriesKept hok.2.1 hstep

theorem LapInv.preserved (h : LapInv T l w) (hok : OneLap l w a)
    (hT : (∀ q, T q → q.Short) ∨ SizeArrived w a) (hstep : step w a = some w') :
    LapInv T l w' := by
  have ht := h.tickets.preserved hok.1 (h.kept hok hstep) hstep
  exact ⟨h.inv.preserved hok.2.1 hT hstep, ht, h.begun.preserved h.tickets ht hok.1 hstep,
    stored_step h.inv h.stored hok.2.2 hstep⟩

theorem LapInv.booted (hl : l < n) : LapInv T l (World.booted n l) :=
  ⟨Inv.booted n l 1, .booted hl, .booted hl, stored_booted n l⟩

/-- A follower that has applied record `k` was given what it read of request `k`. -/
theorem LapInv.applied_get (h : LapInv T l w) {f : Nat} {q : Request} (hf : f ≠ l)
    (hq : w.requests[k]? = some q) (hk : k < (w.nodes f).applied.length) :
    ∃ b, (w.nodes f).applied[k]? = some (vstol (stampOf k), some b)
      ∧ Reads T q (stampOf k) (Record.decode b) := by
  have happ := h.inv.applied f hf
  obtain ⟨v, hv⟩ : ∃ v, (w.nodes f).applied[k]? = some v := ⟨_, List.getElem?_eq_getElem hk⟩
  obtain ⟨b, hb⟩ := (h.stored f).2 v (List.mem_of_getElem? hv)
  obtain ⟨q', hq', hdec⟩ := happ.record k v b hv hb
  obtain rfl : q = q' := Option.some.inj (hq.symm.trans hq')
  refine ⟨b, ?_, hdec⟩
  rw [hv, ← happ.index k v hv, ← hb]

/-- What a follower applies next is what it read of the next request. -/
theorem LapInv.next_record (h : LapInv T l w) {f entry index last : Nat} {b : Buf} (hf : f ≠ l)
    (hpc : (w.nodes f).pc = .apply entry index last) (hle : index ≤ last)
    (hb : w.db f index = some b) :
    ∃ q, w.requests[(w.nodes f).applied.length]? = some q
      ∧ Reads T q (stampOf (w.nodes f).applied.length) (Record.decode b) := by
  have hcommit := (h.inv.applied f hf).commit
  unfold CommitOk at hcommit
  rw [hpc] at hcommit
  obtain ⟨k, e, x, hk, -, -, hxk, -, hlast, hindex, -⟩ := hcommit
  have hacc := (h.inv.replica f fun hboth => hf hboth.1).accepted_le
  have hshort := h.inv.length_lt
  have hlt : (w.nodes f).applied.length < w.requests.length := by omega
  have hq := List.getElem?_eq_getElem hlt
  rw [length_requests] at hacc
  have hkey : index = vstol (stampOf (w.nodes f).applied.length) := by
    rw [vstol_stampOf (by omega), hindex]
  exact ⟨_, hq, h.inv.reads_stored hq (hkey ▸ hb)⟩

end Followers

/-! ## §5. Calls return after their increment. -/

section Returned
variable {id : Nat} {w w' : World} {a : Action}

/-- A call that has returned, from either exit, takes no further step. -/
theorem call_kept {c : Call} (hc : w.calls[id]? = some c) (hpc : c.pc = .done ∨ c.pc = .failed)
    (hstep : step w a = some w') : w'.calls[id]? = some c := by
  cases step_cases hstep with
  | submit =>
      have hlt : id < w.calls.length := (List.getElem?_eq_some_iff.mp hc).1
      exact (List.getElem?_append_left hlt).trans hc
  | @call j d _ _ hd _ _ hcall =>
      obtain ⟨d', hcalls, -⟩ := hcall.frame hd
      have hne : j ≠ id := by
        rintro rfl
        obtain rfl : c = d := Option.some.inj (hc.symm.trans hd)
        cases hcall with
        | _ h => rw [h] at hpc; rcases hpc with hpc | hpc <;> cases hpc
      rw [hcalls, List.getElem?_set_ne hne]
      exact hc
  | replica _ hrep =>
      rw [hrep.frame.2.1]
      exact hc
  | start | crash | joinReply | connect | destroy | relaunch | deliverEntry | deliverAck => exact hc

/-- A call that has returned stays so. -/
theorem World.Returned.preserved (h : w.Returned id) (hstep : step w a = some w') :
    w'.Returned id := by
  obtain ⟨c, hc, hdone⟩ := h
  exact ⟨c, call_kept hc (.inl hdone) hstep, hdone⟩

/-- If stores succeed, no call fails. -/
theorem noneFailed_step (h : ∀ c ∈ w.calls, c.pc ≠ .failed) (hok : StoresSucceed a)
    (hstep : step w a = some w') : ∀ c ∈ w'.calls, c.pc ≠ .failed := by
  cases step_cases hstep with
  | submit =>
      intro c hc
      rcases List.mem_append.mp hc with hold | hlast
      · exact h c hold
      · obtain rfl := List.mem_singleton.mp hlast
        exact nofun
  | @call j d _ _ hd _ _ hcall =>
      obtain rfl : _ = true := hok
      intro c hc
      cases hcall with
      | spin => exact h c hc
      | _ =>
          rcases List.mem_or_eq_of_mem_set hc with hold | rfl
          · exact h c hold
          · exact nofun
  | replica _ hrep =>
      rw [hrep.frame.2.1]
      exact h
  | start | crash | joinReply | connect | destroy | relaunch | deliverEntry | deliverAck => exact h

end Returned

end RdmaPaxos
