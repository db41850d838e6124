/-
  RdmaPaxos.Consensus.Join
  ────────────────────────
  **THE LOG POSITION OF A FOLLOWER THAT CONNECTS.**

  The join messages carry regions and endpoints, no offsets.  A follower starts
  to read where its own log says, and that log is a new one after `launch_rdma`
  and after `reconnect_inner`; the leader goes on where its log says:

      follower   startOf k   k entries accepted into its present log
      leader     startOf m   m entries submitted

  So the two are in step exactly if the follower has accepted everything the
  leader has submitted, which for a new log means that nothing was.

  §1  positions, and what being in step is good for;
  §2  the theorem, and a follower that is started late.
-/
import RdmaPaxos.Consensus.Propagation
import RdmaPaxos.Consensus.WrapAround

namespace RdmaPaxos

open RdmaPaxos.Run

/-! ## §1. Positions. -/

/-- `log->end` of a follower after `log_get_entry`. -/
def Node.readOffset (nd : Node) : Nat := logGetEntry nd.log nd.log.endOff

/-- Both sides have handled the exchange: each one's endpoint leads to the log the
other one has now. -/
def Joined (l f : Nat) (w : World) : Prop :=
  (w.nodes l).conn f = some (w.nodes f).region ∧ (w.nodes f).conn l = some (w.nodes l).region

instance (l f : Nat) (w : World) : Decidable (Joined l f w) := inferInstanceAs (Decidable (_ ∧ _))

/-- The first process of node `l` is the only one to submit, no log wraps, and stores
succeed; nodes come, go, relaunch and connect at any moment. -/
def OneLeader (l : Nat) (w : World) (a : Action) : Prop := SoleLeader l 1 w a ∧ StoresSucceed a

instance (l : Nat) (w : World) (a : Action) : Decidable (OneLeader l w a) :=
  inferInstanceAs (Decidable (_ ∧ _))

/-- Node `f` is in step with the leader in `w`, and stays so. -/
structure InStep (l f : Nat) (w : World) : Prop where
  /-- it reads where the leader places its next entry -/
  offset : (w.nodes f).readOffset = logAddNewEntry (w.nodes l).log
  /-- the next entry it accepts into this log is the leader's next submission, as long as
  no size is read in part -/
  next : ∀ w' x, Reaches step (WholeSizes (OneLeader l)) w w' → (w'.nodes f).region = (w.nodes f).region →
    (w'.nodes f).accepted[(w.nodes f).accepted.length]? = some x →
    ∃ q, w'.requests[w.calls.length]? = some q
      ∧ x = (stampOf w.calls.length, q.record (stampOf w.calls.length))
  /-- every index it passes to `ucb` has a record in its store -/
  record : ∀ w', Reaches step (OneLeader l) w w' → ∀ v ∈ (w'.nodes f).applied, ∃ b, v.2 = some b

section Positions
variable {T : Request → Prop} {n l f : Nat} {w w' : World}

theorem oneLeader_reaches {w₀ : World} (h₀ : Inv T l 1 w₀ ∧ ∀ j, Stored (w₀.db j) (w₀.nodes j))
    {ok : World → Action → Prop} (hok : ∀ w a, ok w a → OneLeader l w a)
    (hT : (∀ q, T q → q.Short) ∨ ∀ w a, ok w a → SizeArrived w a) (h : Reaches step ok w₀ w) :
    Inv T l 1 w ∧ ∀ j, Stored (w.db j) (w.nodes j) :=
  h.invariant (I := fun w => Inv T l 1 w ∧ ∀ j, Stored (w.db j) (w.nodes j)) h₀
    fun _ a _ hinv hoka hs => ⟨hinv.1.preserved (hok _ a hoka).1 (hT.imp_right fun harr =>
      harr _ a hoka) hs, stored_step hinv.1 hinv.2 (hok _ a hoka).2 hs⟩

theorem oneLeader_initial (n l : Nat) : Inv T l 1 (World.initial n)
    ∧ ∀ j, Stored ((World.initial n).db j) ((World.initial n).nodes j) := by
  refine ⟨Inv.initial n l 1, fun j => ⟨fun k hk => ?_, fun v hv => ?_⟩⟩
  · exact absurd hk (Nat.not_lt_zero k)
  · cases hv

/-- A follower is behind the leader, so it does not wrap before the leader does. -/
theorem Inv.replica_notWrapping (h : Inv T l 1 w) (hf : f ≠ l) (hproc : (w.nodes l).region = 1)
    (hwrap : NotWrapping (w.nodes l).log) : NotWrapping (w.nodes f).log := by
  have hrep := h.replica f fun hboth => hf hboth.1
  have hpos : LogAt w.requests (w.nodes l).log w.requests.length := by
    rw [length_requests]
    exact (h.leader hproc).pos
  have hle := hrep.accepted_le
  refine hrep.pos.notWrapping ?_
  rcases hpos.offs with ⟨hzero, -⟩ | ⟨-, ht, hlt, hend⟩
  · exact .inl (by omega)
  · -- the header fits at the leader's position, hence at every earlier one
    right
    have hfit : logFitEntryHeader (w.nodes l).log (w.nodes l).log.endOff = true := by
      rcases hwrap with hfit | htail
      · exact hfit
      · rw [htail, hpos.len] at hlt
        exact absurd hlt (Nat.lt_irrefl _)
    have hin := h.startOf_le_logSize (Nat.le_refl _)
    rw [fit_iff_of_le (by rw [hpos.len]; decide) (by rw [hpos.len, hend]; exact hin), hpos.len, hend]
      at hfit
    have hmono := startOf_le hle (Nat.le_refl _)
    omega

/-- **Where the two sides are.** -/
theorem Inv.offset_iff (h : Inv T l 1 w) (hf : f ≠ l) (hproc : (w.nodes l).region = 1)
    (hwrap : NotWrapping (w.nodes l).log) :
    (w.nodes f).readOffset = logAddNewEntry (w.nodes l).log
      ↔ (w.nodes f).accepted.length = w.calls.length := by
  have hrep := h.replica f fun hboth => hf hboth.1
  have hread := hrep.pos.getEntry (h.replica_notWrapping hf hproc hwrap)
  have hplace := (h.leader hproc).pos.addNewEntry hwrap
  have hle := hrep.accepted_le
  unfold Node.readOffset
  rw [hread, hplace]
  constructor
  · exact startOf_inj hle (length_requests w).ge
  · intro heq
    rw [heq]
    rfl

/-- What a follower accepts are the submissions, in their order. -/
theorem Inv.accepted_get (h : Inv Request.Any l 1 w) (hf : f ≠ l) {k : Nat} {x : ViewStamp × Record}
    (hx : (w.nodes f).accepted[k]? = some x) :
    ∃ q, w.requests[k]? = some q ∧ x = (stampOf k, q.record (stampOf k)) := by
  obtain ⟨q, hq, hvs, hread⟩ := (h.replica f fun hboth => hf hboth.1).accepted.get k x hx
  exact ⟨q, hq, Prod.ext hvs (hread.whole trivial)⟩

/-! ## §2. The theorem. -/

/-- **When a follower is in step.**  In every state of every run of one leader process
in which no log wraps and no size is read in part, hence whenever a connection has just
been completed, a follower is in step exactly if it has accepted into its present log all
that the leader has submitted; with a log just made by `log_new`, exactly if nothing has
been submitted. -/
theorem inStep_iff (h : Reaches step (WholeSizes (OneLeader l)) (World.initial n) w) (hf : f ≠ l)
    (hproc : (w.nodes l).region = 1) (hwrap : NotWrapping (w.nodes l).log) :
    (InStep l f w ↔ (w.nodes f).accepted.length = w.calls.length)
      ∧ ((w.nodes f).accepted = [] → (InStep l f w ↔ w.calls = [])) := by
  have hinv := oneLeader_reaches (T := Request.Any) (oneLeader_initial n l) (fun _ _ hok => hok.1)
    (.inr fun _ _ hok => hok.2) h
  have hiff : InStep l f w ↔ (w.nodes f).accepted.length = w.calls.length := by
    refine ⟨fun hin => (hinv.1.offset_iff hf hproc hwrap).mp hin.offset, fun heq => ?_⟩
    refine ⟨(hinv.1.offset_iff hf hproc hwrap).mpr heq, fun w' x hrun _ hx => ?_, fun w' hrun v hv => ?_⟩
    · rw [heq] at hx
      exact (oneLeader_reaches hinv (fun _ _ hok => hok.1) (.inr fun _ _ hok => hok.2)
        hrun).1.accepted_get hf hx
    · -- whether there is a record does not depend on how much of it was read
      have hstart := oneLeader_reaches (T := Request.Short) (oneLeader_initial n l)
        (fun _ _ hok => hok.1) (.inl fun _ hq => hq) h
      exact ((oneLeader_reaches hstart (fun _ _ hok => hok) (.inl fun _ hq => hq) hrun).2 f).2 v hv
  refine ⟨hiff, fun hnew => ?_⟩
  rw [hiff, hnew, List.length_nil, eq_comm, List.length_eq_zero_iff]

end Positions

/-- Both nodes are started, and connect before anything is submitted. -/
def joinEarly : List Action :=
  [.start 0 true, .start 1 false, .joinReply 1 0, .connect 1 0 1, .connect 0 1 1]

/-- Then the leader submits a request, and the follower accepts it. -/
def joinAccept : List Action :=
  joinEarly ++ [.submit 0 connectReq] ++ callSteps 0 7 ++ [.deliverEntry 0 1 217]
    ++ replicaSteps 1 4

theorem inStep_iff_joinAccept :
    ∃ w, Reaches step (WholeSizes (OneLeader 0)) (World.initial 2) w ∧ Joined 0 1 w
      ∧ w.calls.length = 1 ∧ InStep 0 1 w := by
  obtain ⟨w, hrun, hview⟩ := exists_reaches_of_execOk step (WholeSizes (OneLeader 0))
    (World.initial 2) joinAccept
    (fun w => (decide (Joined 0 1 w), (w.nodes 0).region, decide (NotWrapping (w.nodes 0).log),
      (w.nodes 1).accepted.length, w.calls.length)) (v := (true, 1, true, 1, 1)) (by decide +kernel)
  have hproc : (w.nodes 0).region = 1 := congrArg (fun v => v.2.1) hview
  have hwrap : NotWrapping (w.nodes 0).log :=
    of_decide_eq_true (congrArg (fun v => v.2.2.1) hview)
  have hacc : (w.nodes 1).accepted.length = 1 := congrArg (fun v => v.2.2.2.1) hview
  have hcalls : w.calls.length = 1 := congrArg (fun v => v.2.2.2.2) hview
  refine ⟨w, hrun, of_decide_eq_true (congrArg Prod.fst hview), hcalls, ?_⟩
  exact (inStep_iff hrun (by decide) hproc hwrap).1.mpr (hacc.trans hcalls.symm)

/-- The leader has submitted a request when the follower is started for the first
time. -/
def joinLate : List Action :=
  [.start 0 true, .submit 0 connectReq, .start 1 false, .joinReply 1 0, .connect 1 0 1]

/-- The last step of the exchange completes the connection: the follower reads at 0, and
the leader's next entry goes behind its first. -/
theorem joinLate_notInStep :
    ¬ ∀ (n l f : Nat) (w w' : World) (a : Action), f ≠ l →
      Reaches step (OneLeader l) (World.initial n) w → OneLeader l w a → step w a = some w' →
      ¬ Joined l f w → Joined l f w' → InStep l f w' := by
  intro hall
  obtain ⟨w, hrun, hview⟩ := exists_reaches_of_execOk step (OneLeader 0) (World.initial 2) joinLate
    (fun w => (decide (Joined 0 1 w), (step w (.connect 0 1 1)).map fun w' =>
      (decide (Joined 0 1 w'), (w'.nodes 1).readOffset, logAddNewEntry (w'.nodes 0).log)))
    (v := (false, some (true, 0, 217))) (by decide +kernel)
  obtain ⟨hbefore, hafter⟩ := Prod.mk.inj hview
  obtain ⟨w', hstep, hjoined⟩ := Option.map_eq_some_iff.mp hafter
  have hin := hall 2 0 1 w w' (.connect 0 1 1) (by decide) hrun ⟨trivial, trivial⟩ hstep
    (of_decide_eq_false hbefore) (of_decide_eq_true (congrArg Prod.fst hjoined))
  have hoffset := hin.offset
  rw [show (w'.nodes 1).readOffset = 0 from congrArg (fun v => v.2.1) hjoined,
    show logAddNewEntry (w'.nodes 0).log = 217 from congrArg (fun v => v.2.2) hjoined] at hoffset
  cases hoffset

end RdmaPaxos
