/-
  RdmaPaxos.Consensus.FailedSubmit
  ────────────────────────────────
  **WHAT A FAILED SUBMISSION LEAVES BEHIND.**

  `leader_handle_submit_req` takes a stamp, a region of the log and a send slot of
  every endpoint in its critical section, and calls `store_record` long after.  If
  the store fails it returns at once and gives nothing back:

      taken in the critical section      given back on failure
      highest_seen_vs                    no
      log->end, log->tail                no
      send_count of every endpoint       no

  So the stamp is never written to a follower and never commits, and every later
  request of the process waits for it at line 229.

  §1  the group with its send counters;
  §2  the counters of a leader, and what each action does to them;
  §3  a run beside the counters it would have without one submission;
  §4  no entry is posted for a call that failed;
  §5  the theorem.
-/
import RdmaPaxos.Consensus.Propagation

namespace RdmaPaxos

open RdmaPaxos.ByteMemory RdmaPaxos.Run RdmaPaxos.Ticket

/-! ## §1. Send counters. -/

/-- The group, with the `send_count` of every endpoint: node, server. -/
structure Counted where
  world : World
  sendCount : Nat → Nat → UInt32

/-- Lines 156–172: node `i` is about to send to every server it is connected to. -/
def World.countSends (w : World) (i : Nat) (count : Nat → UInt32) : Nat → UInt32 := fun j =>
  if j < w.size ∧ j ≠ i ∧ ((w.nodes i).conn j).isSome = true then count j + 1 else count j

/-- What an action does to the send counters of the nodes. -/
def World.sendCounts (w : World) (count : Nat → Nat → UInt32) : Action → Nat → Nat → UInt32
  | .submit i _ => Function.update count i (w.countSends i (count i))
  -- `rc_qp_create` and `rc_qp_reset_to_init`
  | .start i _ | .relaunch i => Function.update count i fun _ => 0
  | .connect i j _ => Function.update count i (Function.update (count i) j 0)
  | .replica i _ _ => Function.update count i <|
      match (w.nodes i).pc with
      -- lines 327–340: the follower is about to send its ack
      | .ack entry =>
          let leader := readLE (w.nodes i).log.entries (entry + offNodeId) 4
          Function.update (count i) leader (count i leader + 1)
      | _ => count i
  | _ => count

/-- A step of the group, with its sends counted. -/
def countedStep (s : Counted) (a : Action) : Option Counted :=
  (step s.world a).map fun w => ⟨w, s.world.sendCounts s.sendCount a⟩

/-- A booted group that has sent nothing. -/
def Counted.booted (n l : Nat) : Counted := ⟨World.booted n l, fun _ _ => 0⟩

/-- A counted step is one of the group. -/
theorem countedStep_cases {s s' : Counted} {a : Action} (h : countedStep s a = some s') :
    step s.world a = some s'.world ∧ s'.sendCount = s.world.sendCounts s.sendCount a := by
  obtain ⟨w, hw, rfl⟩ := Option.map_eq_some_iff.mp h
  exact ⟨hw, rfl⟩

/-! ## §2. The counters of a leader. -/

/-- What `leader_handle_submit_req` hands out. -/
structure Counters where
  seen : ViewStamp
  endOff : Nat
  tailOff : Nat
  sendCount : Nat → UInt32

/-- The counters of node `l`. -/
def Counted.counters (s : Counted) (l : Nat) : Counters where
  seen := (s.world.nodes l).seen
  endOff := (s.world.nodes l).log.endOff
  tailOff := (s.world.nodes l).log.tailOff
  sendCount := s.sendCount l

/-- The critical section, on counters `c`. -/
def Counters.submit (c : Counters) (w : World) (l : Nat) (q : Request) : Counters :=
  let alloc := allocEntry
    { (w.nodes l).log with endOff := c.endOff, tailOff := c.tailOff } q.data.size
  { seen := ⟨c.seen.viewId, c.seen.reqId + 1⟩
    endOff := alloc.2.endOff
    tailOff := alloc.2.tailOff
    sendCount := w.countSends l c.sendCount }

/-- An action of the group, on counters `c` of leader `l`. -/
def Counters.after (c : Counters) (l : Nat) (w : World) : Action → Counters
  | .submit i q => if i = l then c.submit w l q else c
  | .connect i j _ => if i = l then { c with sendCount := Function.update c.sendCount j 0 } else c
  | _ => c

section After

variable (c : Counters) (w : World) (l j region : Nat) (q : Request)

@[simp] theorem after_submit : c.after l w (.submit l q) = c.submit w l q := if_pos rfl

@[simp] theorem after_connect : c.after l w (.connect l j region)
    = { c with sendCount := Function.update c.sendCount j 0 } := if_pos rfl

variable {l} {i : Nat} (h : i ≠ l)
include h

theorem after_submit_ne : c.after l w (.submit i q) = c := if_neg h

theorem after_connect_ne : c.after l w (.connect i j region) = c := if_neg h

end After

/-- The process leading on node `l` goes on leading. -/
def LeaderStays (l : Nat) : Action → Prop
  | .start i _ => i ≠ l
  | .joinReply i _ => i ≠ l
  | _ => True

instance (l : Nat) : (a : Action) → Decidable (LeaderStays l a)
  | .start .. | .joinReply .. => inferInstanceAs (Decidable (_ ≠ _))
  | .crash .. | .connect .. | .destroy .. | .relaunch .. | .submit .. | .call .. | .replica ..
  | .deliverEntry .. | .deliverAck .. => isTrue trivial

/-- Node `l` leads, and its replica thread only looks whether it still does. -/
def Leading (l : Nat) (w : World) : Prop := (w.nodes l).leaderId = l ∧ (w.nodes l).pc = .poll

section Leader

variable {l : Nat} {s s' : Counted} {w w' : World} {a : Action}

/-- A node that takes itself for the leader has always done so. -/
theorem idle_step (h : ∀ i, (w.nodes i).leaderId = i → (w.nodes i).pc = .poll)
    (hstep : step w a = some w') : ∀ i, (w'.nodes i).leaderId = i → (w'.nodes i).pc = .poll := by
  have hset : ∀ {i : Nat} {nd : Node}, (nd.leaderId = i → nd.pc = .poll) →
      ∀ j, ((w.setNode i nd).nodes j).leaderId = j → ((w.setNode i nd).nodes j).pc = .poll :=
    fun hnd => forall_setNode (P := fun j nd => nd.leaderId = j → nd.pc = .poll) h hnd
  cases step_cases hstep with
  | start => exact hset fun _ => rfl
  | joinReply _ hne => exact hset fun heq => absurd heq hne
  | relaunch _ _ hpc => exact hset fun _ => hpc
  | crash | connect | destroy | submit | deliverEntry | deliverAck => exact hset (h _)
  | call _ _ _ hcall =>
      intro i
      rw [hcall.field Node.leaderId (fun _ _ => rfl) (fun _ _ => rfl),
        hcall.field Node.pc (fun _ _ => rfl) fun _ _ => rfl]
      exact h i
  | @replica i _ _ _ _ hrep =>
      cases hrep with
      | leader => exact h
      | poll _ hlead => exact hset fun heq => absurd heq hlead
      | measure hpc | marker hpc | accept hpc | acceptUnstored hpc | unconnected hpc | ack hpc | commit hpc
      | apply hpc | applied hpc =>
          -- a thread past the head of the loop belongs to a follower
          exact hset fun heq => absurd ((h i heq).symm.trans hpc) fun hbad => by cases hbad

/-- The part of a leader's process that hands out. -/
def Node.handsOut (nd : Node) : Nat × ReplicaPc × ViewStamp × Nat × Nat :=
  (nd.leaderId, nd.pc, nd.seen, nd.log.endOff, nd.log.tailOff)

/-- A step that hands out nothing leaves the leader's counters alone. -/
theorem counters_congr (h : Leading l s.world)
    (hnode : (s'.world.nodes l).handsOut = (s.world.nodes l).handsOut)
    (hcount : s'.sendCount l = s.sendCount l) :
    Leading l s'.world ∧ s'.counters l = s.counters l := by
  unfold Node.handsOut at hnode
  rw [Prod.mk.injEq, Prod.mk.injEq, Prod.mk.injEq, Prod.mk.injEq] at hnode
  obtain ⟨hlead, hpc, hseen, hend, htail⟩ := hnode
  refine ⟨⟨hlead.trans h.1, hpc.trans h.2⟩, ?_⟩
  unfold Counted.counters
  rw [hseen, hend, htail, hcount]

/-- **The counters of a leader change as `Counters.after` says.** -/
theorem counters_after (h : Leading l s.world) (hok : LeaderStays l a)
    (hstep : countedStep s a = some s') :
    Leading l s'.world ∧ s'.counters l = (s.counters l).after l s.world a := by
  obtain ⟨w, count⟩ := s
  obtain ⟨w', count'⟩ := s'
  obtain ⟨hw, hcount⟩ := countedStep_cases hstep
  dsimp only at hw hcount h
  subst hcount
  -- a step of another node, or one that hands out nothing
  have hkept : ∀ {i : Nat} {nd : Node}, (i = l → nd.handsOut = (w.nodes l).handsOut) →
      ((w.setNode i nd).nodes l).handsOut = (w.nodes l).handsOut := setNode_field Node.handsOut
  cases step_cases hw with
  | start =>
      exact counters_congr (s := ⟨w, count⟩) h (hkept fun heq => absurd heq hok)
        (Function.update_of_ne (Ne.symm hok) ..)
  | joinReply =>
      exact counters_congr (s := ⟨w, count⟩) h (hkept fun heq => absurd heq hok) rfl
  | @relaunch i _ hlead =>
      have hne : i ≠ l := fun heq => hlead (by rw [heq]; exact h.1)
      exact counters_congr (s := ⟨w, count⟩) h (hkept fun heq => absurd heq hne)
        (Function.update_of_ne (Ne.symm hne) ..)
  | crash | destroy | deliverEntry | deliverAck =>
      exact counters_congr (s := ⟨w, count⟩) h (hkept fun heq => by subst heq; rfl) rfl
  | call _ _ _ hcall =>
      exact counters_congr (s := ⟨w, count⟩) h
        (hcall.field Node.handsOut (fun _ _ => rfl) (fun _ _ => rfl) l) rfl
  | @replica i hash stored _ _ hrep =>
      refine counters_congr (s := ⟨w, count⟩) h (by rw [hrep.leader_nodes h.2 h.1]) ?_
      show w.sendCounts count (.replica i stored hash) l = count l
      dsimp only [World.sendCounts]
      rcases eq_or_ne l i with rfl | hne
      · rw [Function.update_self, h.2]
      · exact Function.update_of_ne hne ..
  | @connect i j region =>
      rcases eq_or_ne i l with rfl | hne
      · rw [after_connect]
        unfold Leading Counted.counters
        rw [setNode_nodes_self]
        exact ⟨h, congrArg (Counters.mk _ _ _) (Function.update_self ..)⟩
      · rw [after_connect_ne _ _ _ _ hne]
        exact counters_congr (s := ⟨w, count⟩) h (hkept fun heq => absurd heq hne)
          (Function.update_of_ne (Ne.symm hne) ..)
  | @submit i q =>
      rcases eq_or_ne i l with rfl | hne
      · rw [after_submit]
        unfold Leading Counted.counters
        rw [submit_nodes_self]
        exact ⟨h, congrArg (Counters.mk _ _ _) (Function.update_self ..)⟩
      · rw [after_submit_ne _ _ _ hne]
        exact counters_congr (s := ⟨w, count⟩) h (hkept fun heq => absurd heq hne)
          (Function.update_of_ne (Ne.symm hne) ..)

end Leader

/-! ## §3. As if it had not been made. -/

/-- A run, beside the counters the leader would have if one submission, made before it, had
not been made. -/
structure Beside where
  run : Counted
  asIf : Counters

/-- A step of the run, and of the counters beside it. -/
def besideStep (l : Nat) (t : Beside) (a : Action) : Option Beside :=
  (countedStep t.run a).map fun s => ⟨s, t.asIf.after l t.run.world a⟩

/-- A step of the run, and of the counters beside it. -/
theorem besideStep_cases {l : Nat} {t t' : Beside} {a : Action} (h : besideStep l t a = some t') :
    countedStep t.run a = some t'.run ∧ t'.asIf = t.asIf.after l t.run.world a := by
  obtain ⟨s, hs, rfl⟩ := Option.map_eq_some_iff.mp h
  exact ⟨hs, rfl⟩

section Ahead

variable {l : Nat} {s s₁ : Counted} {q : Request} {t t' : Beside} {a : Action}

/-- One stamp more is taken than as if. -/
structure Ahead (l : Nat) (t : Beside) : Prop where
  leads : Leading l t.run.world
  seen : (t.run.counters l).seen = ⟨t.asIf.seen.viewId, t.asIf.seen.reqId + 1⟩

/-- **The step lemma**: what is handed out later goes to both alike. -/
theorem Ahead.preserved (h : Ahead l t) (hok : LeaderStays l a) (hstep : besideStep l t a = some t') :
    Ahead l t' := by
  obtain ⟨hrun, hasIf⟩ := besideStep_cases hstep
  obtain ⟨hleads, hcounters⟩ := counters_after h.leads hok hrun
  refine ⟨hleads, ?_⟩
  rw [hcounters, hasIf]
  cases a with
  | submit i q =>
      rcases eq_or_ne i l with rfl | hne
      · rw [after_submit, after_submit]
        show ViewStamp.mk (t.run.counters i).seen.viewId ((t.run.counters i).seen.reqId + 1) = _
        rw [h.seen]
        rfl
      · rw [after_submit_ne _ _ _ hne, after_submit_ne _ _ _ hne]
        exact h.seen
  | connect i j region =>
      rcases eq_or_ne i l with rfl | hne
      · rw [after_connect, after_connect]
        exact h.seen
      · rw [after_connect_ne _ _ _ _ hne, after_connect_ne _ _ _ _ hne]
        exact h.seen
  | _ => exact h.seen

/-- The submission puts the leader's counters ahead. -/
theorem Ahead.submit (hleads : Leading l s.world) (hsubmit : countedStep s (.submit l q) = some s₁) :
    Ahead l ⟨s₁, s.counters l⟩ := by
  obtain ⟨hleads', hcounters⟩ := counters_after (a := .submit l q) hleads trivial hsubmit
  refine ⟨hleads', ?_⟩
  rw [hcounters, after_submit]
  rfl

/-- Counters that are ahead differ. -/
theorem Ahead.differs (h : Ahead l t) : t.run.counters l ≠ t.asIf := by
  intro heq
  have hseen := h.seen
  rw [heq] at hseen
  have hid : t.asIf.seen.reqId = t.asIf.seen.reqId + 1 := congrArg ViewStamp.reqId hseen
  simp at hid

/-- One send more is counted at endpoint `j` than as if. -/
theorem sendCount_after {j : Nat} (h : (t.run.counters l).sendCount j = t.asIf.sendCount j + 1)
    (hleads : Leading l t.run.world) (hok : LeaderStays l a) (hconn : ∀ region, a ≠ .connect l j region)
    (hstep : besideStep l t a = some t') :
    (t'.run.counters l).sendCount j = t'.asIf.sendCount j + 1 := by
  obtain ⟨hrun, hasIf⟩ := besideStep_cases hstep
  obtain ⟨-, hcounters⟩ := counters_after hleads hok hrun
  rw [hcounters, hasIf]
  cases a with
  | submit i q =>
      rcases eq_or_ne i l with rfl | hne
      · rw [after_submit, after_submit]
        show t.run.world.countSends i (t.run.counters i).sendCount j
          = t.run.world.countSends i t.asIf.sendCount j + 1
        unfold World.countSends
        split
        · rw [h]
        · exact h
      · rw [after_submit_ne _ _ _ hne, after_submit_ne _ _ _ hne]
        exact h
  | connect i k region =>
      rcases eq_or_ne i l with rfl | hne
      · have hjk : j ≠ k := fun heq => hconn region (by rw [heq])
        rw [after_connect, after_connect]
        show Function.update (t.run.counters i).sendCount k 0 j
          = Function.update t.asIf.sendCount k 0 j + 1
        rw [Function.update_of_ne hjk, Function.update_of_ne hjk]
        exact h
      · rw [after_connect_ne _ _ _ _ hne, after_connect_ne _ _ _ _ hne]
        exact h
  | _ => exact h

end Ahead

/-! ## §4. No entry is posted for a call that failed. -/

/-- An entry write belongs to a call that is past its store and its marker. -/
def Posted (w : World) : Prop :=
  ∀ id j e, w.entryWrites id j = some e → ∃ c, w.calls[id]? = some c ∧ 4 ≤ c.pc.stage

section Posted

variable {w w' : World} {a : Action}

/-- A call past its marker stays past it. -/
theorem CallStep.stage_le {id : Nat} {c c' : Call} {stored : Bool} (h : CallStep w id c stored w')
    (hc : w.calls[id]? = some c) (hc' : w'.calls[id]? = some c') (hs : 4 ≤ c.pc.stage) :
    4 ≤ c'.pc.stage := by
  have hlt : id < w.calls.length := (List.getElem?_eq_some_iff.mp hc).1
  cases h with
  | spin =>
      obtain rfl : c = c' := Option.some.inj (hc.symm.trans hc')
      exact hs
  | sample hpc | fill hpc | store hpc | fail hpc | mark hpc =>
      rw [hpc] at hs
      exact absurd hs (by decide)
  | skip | post | posted | hit | miss | scanned | ackId | quorum | again | leaveSpin | incRead
  | incWrite =>
      obtain rfl := Option.some.inj ((List.getElem?_set_self hlt).symm.trans hc')
      exact Nat.le_of_ble_eq_true rfl

/-- A call takes a step: only one past its marker writes to a server. -/
theorem Posted.callStep (h : Posted w) {id : Nat} {c : Call} {stored : Bool}
    (hc : w.calls[id]? = some c) (hstep : CallStep w id c stored w') : Posted w' := by
  obtain ⟨c', hcalls, -⟩ := hstep.frame hc
  have hlt : id < w.calls.length := (List.getElem?_eq_some_iff.mp hc).1
  have hself : w'.calls[id]? = some c' := by rw [hcalls, List.getElem?_set_self hlt]
  -- a write that was there before
  have hold : ∀ {k j : Nat} {e : EntryWrite}, w.entryWrites k j = some e →
      ∃ d, w'.calls[k]? = some d ∧ 4 ≤ d.pc.stage := by
    intro k j e he
    obtain ⟨d, hd, hs⟩ := h k j e he
    rcases eq_or_ne k id with rfl | hne
    · obtain rfl : c = d := Option.some.inj (hc.symm.trans hd)
      exact ⟨c', hself, hstep.stage_le hc hself hs⟩
    · exact ⟨d, by rw [hcalls, List.getElem?_set_ne (Ne.symm hne)]; exact hd, hs⟩
  intro k j e he
  cases hstep with
  | @post _ i region hpc =>
      rcases eq_or_ne k id with rfl | hne
      · exact ⟨_, List.getElem?_set_self hlt, Nat.le_refl 4⟩
      · have hother : (w.setEntryWrite id i (postEntry (w.nodes c.owner).log.entries c region)).entryWrites k
            = w.entryWrites k := Function.update_of_ne hne ..
        exact hold (hother ▸ he)
  | _ => exact hold he

/-- **The step lemma.** -/
theorem Posted.preserved (h : Posted w) (hstep : step w a = some w') : Posted w' := by
  cases step_cases hstep with
  | submit =>
      intro id j e he
      obtain ⟨c, hc, hs⟩ := h id j e he
      have hlt : id < w.calls.length := (List.getElem?_eq_some_iff.mp hc).1
      exact ⟨c, (List.getElem?_append_left hlt).trans hc, hs⟩
  | call hc _ _ hcall => exact h.callStep hc hcall
  | replica _ hrep =>
      unfold Posted
      rw [hrep.frame.2.1, hrep.frame.2.2]
      exact h
  | @deliverEntry id i k e he =>
      intro id' j e' he'
      rcases eq_or_ne id' id with rfl | hne
      · exact h id' i e he
      · have hother : (w.setEntryWrite id i { e with visible := e.visible + k }).entryWrites id'
            = w.entryWrites id' := Function.update_of_ne hne ..
        exact h id' j e' (hother ▸ he')
  | start | crash | joinReply | connect | destroy | relaunch | deliverAck => exact h

end Posted

/-! ## §5. The failed submission. -/

/-- What call `id` of leader `l`, which failed, has taken and not given back. -/
structure Consumed (n l id : Nat) (t : Beside) : Prop where
  /-- one stamp more is taken than without it -/
  stamp : (t.run.counters l).seen = ⟨t.asIf.seen.viewId, t.asIf.seen.reqId + 1⟩
  /-- its entry is never written to any server -/
  unwritten : ∀ u, Reaches countedStep (fun _ _ => True) t.run u →
    ∀ j, u.world.entryWrites id j = none
  /-- no later request of the process returns, if entries are kept -/
  waiting : l < n →
    Reaches countedStep (fun s a => OneProcess l s.world a ∧ EntriesKept l s.world a)
      (Counted.booted n l) t.run →
    ∀ k d, id < k → t.run.world.calls[k]? = some d → d.pc ≠ .done

section Failed

variable {n l₀ l : Nat} {s s₁ : Counted} {q : Request} {t : Beside} {c : Call}

/-- What holds of every state of the group. -/
theorem counted_reaches (h : Reaches countedStep (fun _ _ => True) (Counted.booted n l₀) s) :
    (∀ i, (s.world.nodes i).leaderId = i → (s.world.nodes i).pc = .poll) ∧ Posted s.world := by
  refine h.invariant (I := fun s => (∀ i, (s.world.nodes i).leaderId = i →
    (s.world.nodes i).pc = .poll) ∧ Posted s.world) ⟨fun i _ => ?_, fun id j e he => ?_⟩ ?_
  · obtain ⟨_, _, _, _, heq, -⟩ := booted_node (n := n) (l := l₀) i
    show ((World.booted n l₀).nodes i).pc = .poll
    rw [heq]
    rfl
  · cases he
  · intro s a s' hinv _ hstep
    have hw := (countedStep_cases hstep).1
    exact ⟨idle_step hinv.1 hw, hinv.2.preserved hw⟩

/-- Whoever submits is a leader. -/
theorem leads_of_submit (h : Reaches countedStep (fun _ _ => True) (Counted.booted n l₀) s)
    (hsubmit : countedStep s (.submit l q) = some s₁) : Leading l s.world := by
  obtain ⟨w₁, count₁⟩ := s₁
  have hstep : step s.world (.submit l q) = some w₁ := (countedStep_cases hsubmit).1
  cases step_cases hstep with
  | submit _ hlead => exact ⟨hlead, (counted_reaches h).1 l hlead⟩

/-- A counted run is one of the group. -/
theorem world_reaches (ok : World → Action → Prop) {s₀ : Counted}
    (h : Reaches countedStep (fun s a => ok s.world a) s₀ s) : Reaches step ok s₀.world s.world :=
  h.project (f := Counted.world) fun _ a _ hok hstep => .inr ⟨a, hok, (countedStep_cases hstep).1⟩

/-- A run beside its counters is a run. -/
theorem beside_run {ok : Beside → Action → Prop}
    (h : Reaches (besideStep l) ok ⟨s₁, s.counters l⟩ t) :
    Reaches countedStep (fun _ _ => True) s₁ t.run :=
  h.project (f := Beside.run) fun _ a _ _ hstep =>
    .inr ⟨a, trivial, (besideStep_cases hstep).1⟩

/-- The leader's counters stay ahead for the rest of the run. -/
theorem ahead_of_run (hleads : Leading l s.world) (hsubmit : countedStep s (.submit l q) = some s₁)
    (hrun : Reaches (besideStep l) (fun _ a => LeaderStays l a) ⟨s₁, s.counters l⟩ t) : Ahead l t :=
  hrun.invariant (I := Ahead l) (.submit hleads hsubmit) fun _ _ _ h hok hs => h.preserved hok hs

/-- The sends counted for the call stay counted until the endpoint is reset. -/
theorem sends_of_run {j : Nat} (hleads : Leading l s.world)
    (hsubmit : countedStep s (.submit l q) = some s₁) (hj : j < s.world.size) (hne : j ≠ l)
    (hconn : (s.world.nodes l).conn j ≠ none)
    (hrun : Reaches (besideStep l) (fun _ a => LeaderStays l a ∧ ∀ region, a ≠ .connect l j region)
      ⟨s₁, s.counters l⟩ t) : (t.run.counters l).sendCount j = t.asIf.sendCount j + 1 := by
  have hfirst : (s₁.counters l).sendCount j = (s.counters l).sendCount j + 1 := by
    rw [(counters_after (a := .submit l q) hleads trivial hsubmit).2, after_submit]
    exact if_pos ⟨hj, hne, Option.isSome_iff_ne_none.mpr hconn⟩
  have hinv : Ahead l t ∧ (t.run.counters l).sendCount j = t.asIf.sendCount j + 1 :=
    hrun.invariant (I := fun t => Ahead l t ∧ (t.run.counters l).sendCount j = t.asIf.sendCount j + 1)
      ⟨.submit hleads hsubmit, hfirst⟩ fun _ _ _ h hok hs =>
        ⟨h.1.preserved hok.1 hs, sendCount_after h.2 h.1.leads hok.1 hok.2 hs⟩
  exact hinv.2

/-- A failed call stays failed, and nothing is ever posted for it. -/
theorem unwritten_of_failed {id : Nat} {s u : Counted} (hposted : Posted s.world)
    (hc : s.world.calls[id]? = some c) (hfail : c.pc = .failed)
    (h : Reaches countedStep (fun _ _ => True) s u) (j : Nat) : u.world.entryWrites id j = none := by
  have hkept : u.world.calls[id]? = some c ∧ Posted u.world :=
    h.invariant (I := fun u => u.world.calls[id]? = some c ∧ Posted u.world) ⟨hc, hposted⟩
      fun _ _ _ hinv _ hs => ⟨call_kept hinv.1 (.inr hfail) (countedStep_cases hs).1,
        hinv.2.preserved (countedStep_cases hs).1⟩
  cases he : u.world.entryWrites id j with
  | none => rfl
  | some e =>
      obtain ⟨d, hd, hs⟩ := hkept.2 id j e he
      obtain rfl : c = d := Option.some.inj (hkept.1.symm.trans hd)
      rw [hfail] at hs
      exact absurd hs (by decide)

/-- The commit point stays below the stamp of a failed call. -/
theorem not_done_of_failed {id k : Nat} {w : World} {d : Call} (h : CommitOrder l w)
    (hc : w.calls[id]? = some c) (hfail : c.pc = .failed) (hk : id < k)
    (hd : w.calls[k]? = some d) : d.pc ≠ .done := by
  intro hdone
  have hle := (h.exact d (List.mem_of_getElem? hd)).mp hdone
  have hc' := h.exact c (List.mem_of_getElem? hc)
  rw [h.number k d hd] at hle
  rw [h.number id c hc, hfail] at hc'
  have hbad : CallPc.failed = .done := hc'.mpr (by omega)
  cases hbad

/-- **A failed submission is never undone.**  Whatever the state in which it is made, the
request, and the other submissions and actions before and after it fails, its stamp and its
sends remain taken; so at no time are the counters as if it had not been made. -/
theorem failed_submit_consumes
    (h : Reaches countedStep (fun _ _ => True) (Counted.booted n l₀) s)
    (hsubmit : countedStep s (.submit l q) = some s₁)
    (hrun : Reaches (besideStep l) (fun _ a => LeaderStays l a) ⟨s₁, s.counters l⟩ t)
    (hc : t.run.world.calls[s.world.calls.length]? = some c) (hfail : c.pc = .failed) :
    t.run.counters l ≠ t.asIf
      ∧ Consumed n l s.world.calls.length t
      ∧ ∀ j, j < s.world.size → j ≠ l → (s.world.nodes l).conn j ≠ none →
          Reaches (besideStep l) (fun _ a => LeaderStays l a ∧ ∀ region, a ≠ .connect l j region)
            ⟨s₁, s.counters l⟩ t →
          (t.run.counters l).sendCount j = t.asIf.sendCount j + 1 := by
  have hleads := leads_of_submit h hsubmit
  have hahead := ahead_of_run hleads hsubmit hrun
  have hreach := (h.tail trivial hsubmit).trans (beside_run hrun)
  refine ⟨hahead.differs, ⟨hahead.seen, fun u hu j => ?_, fun hl hkept k d hk hd => ?_⟩, ?_⟩
  · exact unwritten_of_failed (counted_reaches hreach).2 hc hfail hu j
  · have hworld := world_reaches (fun w a => OneProcess l w a ∧ EntriesKept l w a) hkept
    exact not_done_of_failed (commitOrder hl hworld) hc hfail hk hd
  · intro j hj hne hconn hrun'
    exact sends_of_run hleads hsubmit hj hne hconn hrun'

end Failed

/-- The first request of a booted group is submitted. -/
def firstSubmitted : Counted :=
  (countedStep (Counted.booted 2 0) (.submit 0 connectReq)).get (by decide +kernel)

theorem firstSubmitted_eq :
    countedStep (Counted.booted 2 0) (.submit 0 connectReq) = some firstSubmitted :=
  (Option.some_get _).symm

/-- Its store fails while another request is submitted. -/
def failsMeanwhile : List Action :=
  [.call 0 true, .submit 0 (sendReq 65), .call 0 true, .call 0 false]

/-- The first submission fails while a second one is made. -/
theorem exists_failsMeanwhile :
    ∃ t c, Reaches (besideStep 0) (fun _ a => LeaderStays 0 a)
        ⟨firstSubmitted, (Counted.booted 2 0).counters 0⟩ t
      ∧ t.run.world.calls[0]? = some c ∧ c.pc = .failed
      ∧ (t.run.counters 0).seen = ⟨1, 2⟩ ∧ t.asIf.seen = ⟨1, 1⟩ := by
  obtain ⟨t, hrun, hview⟩ := exists_reaches_of_execOk (besideStep 0) (fun _ a => LeaderStays 0 a)
    ⟨firstSubmitted, (Counted.booted 2 0).counters 0⟩ failsMeanwhile
    (fun t => (t.run.world.calls[0]?.map Call.pc, (t.run.counters 0).seen, t.asIf.seen))
    (v := (some .failed, ⟨1, 2⟩, ⟨1, 1⟩)) (by decide +kernel)
  obtain ⟨c, hc, hpc⟩ := Option.map_eq_some_iff.mp (congrArg Prod.fst hview)
  exact ⟨t, c, hrun, hc, hpc, congrArg (fun v => v.2.1) hview, congrArg (fun v => v.2.2) hview⟩

theorem failed_submit_consumes_first :
    ∃ t, (t.run.counters 0).seen = ⟨1, 2⟩ ∧ t.asIf.seen = ⟨1, 1⟩
      ∧ t.run.counters 0 ≠ t.asIf ∧ Consumed 2 0 0 t := by
  obtain ⟨t, c, hrun, hc, hfail, hseen, hasIf⟩ := exists_failsMeanwhile
  have hcost := failed_submit_consumes (n := 2) (s := Counted.booted 2 0) .refl firstSubmitted_eq
    hrun hc hfail
  exact ⟨t, hseen, hasIf, hcost.1, hcost.2.1⟩

/-- After the failed store the counters are not as if the submission had not been made. -/
theorem failed_submit_not_undone :
    ¬ ∀ (n l₀ l : Nat) (s s₁ : Counted) (q : Request) (t : Beside) (c : Call),
      Reaches countedStep (fun _ _ => True) (Counted.booted n l₀) s →
      countedStep s (.submit l q) = some s₁ →
      Reaches (besideStep l) (fun _ a => LeaderStays l a) ⟨s₁, s.counters l⟩ t →
      t.run.world.calls[s.world.calls.length]? = some c → c.pc = .failed →
      t.run.counters l = t.asIf := by
  intro hall
  obtain ⟨t, c, hrun, hc, hfail, -⟩ := exists_failsMeanwhile
  have hleads := leads_of_submit (n := 2) (s := Counted.booted 2 0) .refl firstSubmitted_eq
  exact (ahead_of_run hleads firstSubmitted_eq hrun).differs
    (hall 2 0 0 (Counted.booted 2 0) firstSubmitted connectReq t c .refl firstSubmitted_eq hrun hc hfail)

end RdmaPaxos
