/-
  RdmaPaxos.Rc.Control
  ────────────────────
  **CONTROL MESSAGES ON THE COMPLETION QUEUE OF THE DATA PATH.**

  `rc_send_hb`, `rc_send_vote_request` and `rc_send_vote_ack` pass 1 for the
  argument of `post_send` that a comment calls `signaled`.  As `send_flags` that is
  `IBV_SEND_FENCE`: the request generates no completion, and the `poll_cq` after it
  waits for one that the data path has asked for, or for none at all.

      signaled sends pending     the control path's poll
      none                       waits; one completion more is asked for than
                                 requests were signaled
      one or more                takes the completion of a data-path send

  §1  the property;
  §2  the theorem, and two runs.
-/
import RdmaPaxos.Rc.Send

namespace RdmaPaxos.Rc

open RdmaPaxos.Run RdmaPaxos.SendQueue

/-! ## §1. Own completions. -/

/-- No more completions have been asked for than requests signaled, and no poll of
the control path has taken a completion of the data path. -/
structure OwnCompletions (e : Endpoint) : Prop where
  asked : e.asked ≤ e.signaled
  taken : ∀ t ∈ e.taken, t.1 = .control → t.2 ≠ .data

instance (e : Endpoint) : Decidable (OwnCompletions e) :=
  decidable_of_iff (e.asked ≤ e.signaled ∧ ∀ t ∈ e.taken, t.1 = .control → t.2 ≠ .data)
    ⟨fun h => ⟨h.1, h.2⟩, fun h => ⟨h.asked, h.taken⟩⟩

section Own
variable {e : Endpoint}

/-- Without control messages, a poll in progress has its completion pending. -/
theorem Flow.ownCompletions (h : Flow e) (hledger : Ledger e) (hnone : e.controls = 0) :
    OwnCompletions e := by
  obtain ⟨polls, hturn, hasked⟩ := h.turn
  constructor
  · rw [hasked, hledger.signaled]
    apply Nat.add_le_add_left
    cases hd : e.sends[e.queue.posted]? with
    | none =>
        rw [hd] at hturn
        cases hturn
        exact Nat.zero_le _
    | some d =>
        have hpoll := (h.send _ d hd).2
        rw [pollCompletion_ofNat] at hpoll
        rw [hd] at hturn
        cases hturn with
        | polling _ hdpoll hcad =>
            rw [hdpoll] at hpoll
            have hlast := of_decide_eq_true hpoll.symm
            obtain ⟨i, owner, hpending, -⟩ := hcad.one_pending (by rw [hlast]; decide)
            rw [hpending]
            exact Nat.le_refl 1
        | enter | plain | polled => exact Nat.zero_le _
  · intro t ht hcontrol
    have hcontrols := hledger.controls
    have hpos : 0 < e.taken.countP (·.1 = .control) :=
      List.countP_pos_iff.mpr ⟨t, ht, by simpa using hcontrol⟩
    omega

/-- The network completes one request after the other. -/
theorem exists_completed {ok : Endpoint → Action → Prop} (hok : ∀ e, ok e .complete)
    (hle : e.queue.completed ≤ e.queue.posted) :
    Reaches Endpoint.step ok e { e with queue := { e.queue with completed := e.queue.posted } } := by
  obtain ⟨k, hk⟩ := Nat.exists_eq_add_of_le hle
  induction k generalizing e with
  | zero =>
      have hself : { e with queue := { e.queue with completed := e.queue.posted } } = e := by
        rw [hk]
        rfl
      rw [hself]
      exact .refl
  | succ k ih =>
      have hstep : e.step .complete
          = some { e with queue := { e.queue with completed := e.queue.completed + 1 } } := by
        simp only [Endpoint.step, Queue.complete]
        rw [if_pos (by omega)]
        rfl
      have hrest := ih (e := { e with queue := { e.queue with completed := e.queue.completed + 1 } })
        (by show e.queue.completed + 1 ≤ e.queue.posted; omega)
        (by show e.queue.posted = e.queue.completed + 1 + k; omega)
      exact (Reaches.single (hok e) hstep).trans hrest

theorem dataOnly_complete (e : Endpoint) : DataOnly e .complete :=
  ⟨trivial, fun heq => by cases heq⟩

theorem dataOnly_controlRun (e : Endpoint) : DataOnly e .controlRun :=
  ⟨trivial, fun heq => by cases heq⟩

/-- A control poll that waits: for nothing, or for what is not its own. -/
theorem exists_not_own_polling (h : Ledger e) (hpc : e.control = .polling) :
    ∃ e', Reaches Endpoint.step DataOnly e e' ∧ ¬ OwnCompletions e' := by
  have hasked := h.asked
  have hsignaled := h.signaled
  rw [hpc] at hasked
  simp only [ControlPc.polls] at hasked
  cases hpending : e.queue.pending with
  | nil =>
      rw [hpending] at hsignaled
      refine ⟨e, .refl, fun hown => ?_⟩
      have hle := hown.asked
      rw [hsignaled, List.length_nil] at hle
      omega
  | cons p rest =>
      -- the request completes, and the control path takes it
      obtain ⟨hlt, howner⟩ := h.pending p (by rw [hpending]; exact List.mem_cons_self)
      have hrun : Reaches Endpoint.step DataOnly e
          { e with queue := { e.queue with completed := e.queue.posted } } :=
        exists_completed dataOnly_complete h.completed
      have hstep : Endpoint.step { e with queue := { e.queue with completed := e.queue.posted } }
          .controlRun = some { e with
            queue := ⟨e.queue.posted, e.queue.posted, rest, p.1 + 1⟩
            taken := e.taken ++ [(.control, p.2)]
            control := .idle } := by
        simp only [Endpoint.step, hpc, Endpoint.pollCq, Queue.poll, hpending]
        rw [if_pos hlt]
        rfl
      refine ⟨_, hrun.tail (dataOnly_controlRun _) hstep, fun hown => ?_⟩
      exact hown.taken (.control, p.2) (List.mem_append_right _ (List.mem_singleton_self _)) rfl howner

/-- A control message once posted. -/
theorem exists_not_own (h : Ledger e) (hcontrols : e.controls ≠ 0) :
    ∃ e', Reaches Endpoint.step DataOnly e e' ∧ ¬ OwnCompletions e' := by
  have hcount := h.controls
  cases hpc : e.control with
  | idle =>
      -- its poll has returned
      rw [hpc] at hcount
      obtain ⟨t, ht, hcontrol⟩ := List.countP_pos_iff.mp (Nat.pos_of_ne_zero (hcount ▸ hcontrols))
      exact ⟨e, .refl, fun hown => hown.taken t ht (by simpa using hcontrol) (h.owner t ht)⟩
  | posted =>
      have hstep : e.step .controlRun = some { e with control := .polling, asked := e.asked + 1 } := by
        simp only [Endpoint.step, hpc]
      obtain ⟨e', hrun, hnot⟩ := exists_not_own_polling (h.preserved (step_cases hstep)) rfl
      exact ⟨e', (Reaches.single (dataOnly_controlRun e) hstep).trans hrun, hnot⟩
  | polling => exact exists_not_own_polling h hpc

end Own

/-! ## §2. The theorem. -/

/-- **Control messages and the completions of the data path.**  After every run, with
any interleaving of control messages with data-path sends posted in order: whatever
happens next, short of another control message, asks for no more completions than
were signaled and leaves the control path to its own, exactly if no heartbeat, vote
request or vote ack has been sent on the endpoint. -/
theorem own_completions_iff {e : Endpoint} (h : Reaches Endpoint.step InOrder .connected e) :
    (∀ e', Reaches Endpoint.step DataOnly e e' → OwnCompletions e') ↔ e.controls = 0 := by
  constructor
  · intro hall
    by_contra hcontrols
    obtain ⟨e', hrun, hnot⟩ := exists_not_own (reaches_ledger h) hcontrols
    exact hnot (hall e' hrun)
  · intro hnone e' hrun
    have hrun' := h.trans (hrun.mono fun _ _ hok => hok.1)
    have hzero : e'.controls = 0 := (controls_of_dataOnly hrun).trans hnone
    exact (reaches_flow (fun _ _ hok => hok) hrun' hzero).ownCompletions (reaches_ledger hrun') hzero

/-- One send, before any control message. -/
theorem own_completions_iff_firstSend :
    ∃ e, Reaches Endpoint.step InOrder .connected e ∧ e.queue.posted = 1
      ∧ ∀ e', Reaches Endpoint.step DataOnly e e' → OwnCompletions e' := by
  obtain ⟨e, h, hposted, -⟩ := exists_posted (k := 1) (by decide)
  have hrun : Reaches Endpoint.step InOrder .connected e := h.mono fun _ _ hok => hok.1
  exact ⟨e, hrun, hposted, (own_completions_iff hrun).mpr (controls_of_dataOnly h)⟩

/-- The first heartbeat of an endpoint asks for a completion that nobody signaled; after
a data-path send it takes that send's. -/
theorem own_completions_fails :
    (∃ e, Reaches Endpoint.step InOrder .connected e ∧ ¬ OwnCompletions e)
    ∧ ∃ e, Reaches Endpoint.step InOrder .connected e ∧ e.asked ≤ e.signaled
      ∧ (Path.control, Path.data) ∈ e.taken := by
  constructor
  · obtain ⟨e, h, hv⟩ := exists_reaches_of_execOk Endpoint.step InOrder .connected
      [.control, .controlRun] (fun e => (e.asked, e.signaled)) (v := (1, 0)) (by decide +kernel)
    have hasked := congrArg Prod.fst hv
    have hsignaled := congrArg Prod.snd hv
    dsimp only at hasked hsignaled
    exact ⟨e, h, fun hown => absurd hown.asked (by omega)⟩
  · obtain ⟨e, h, hv⟩ := exists_reaches_of_execOk Endpoint.step InOrder .connected
      [.send, .run 0, .run 0, .complete, .control, .controlRun, .controlRun]
      (fun e => (e.asked, e.signaled, e.taken)) (v := (1, 1, [(.control, .data)])) (by decide +kernel)
    simp only [Prod.mk.injEq] at hv
    obtain ⟨hasked, hsignaled, htaken⟩ := hv
    exact ⟨e, h, by omega, by rw [htaken]; exact List.mem_singleton_self _⟩

end RdmaPaxos.Rc
