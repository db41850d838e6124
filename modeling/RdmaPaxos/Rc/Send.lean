/-
  RdmaPaxos.Rc.Send
  ─────────────────
  **WORK REQUESTS AND COMPLETIONS OF ONE ENDPOINT** (`post_send`, `poll_cq`,
  `rc_send_hb`, `rc_send_vote_request` and `rc_send_vote_ack` in
  `rdma/dare_ibv_rc.c`; the send flags in `consensus/consensus.c`).

  Two kinds of callers share the queue pair and the completion queue of a peer:

      data path      flags and poll from `send_count`, poll before the post
      control path   `send_flags` = 1 and no poll in `post_send`, poll after it

  The data path is any number of threads of `leader_handle_submit_req`, or the one
  of `handle_accept_req`; each derives its flags when it counts its send.  The
  control path is the event loop of the election, one message at a time.

  libibverbs: `IBV_SEND_FENCE` is 1, `IBV_SEND_SIGNALED` is 2, only a signaled
  request generates a completion, and requests complete in order.

  §1  flags;
  §2  the endpoint;
  §3  what a step does;
  §4  what holds in every run;
  §5  the data path alone, posted in order;
  §6  the theorem.
-/
import RdmaPaxos.Lib.Run
import RdmaPaxos.Lib.SendQueue
import RdmaPaxos.Lib.Ticket

namespace RdmaPaxos.Rc

open RdmaPaxos.Run RdmaPaxos.SendQueue
open RdmaPaxos.Ticket (get_set get_concat)

/-! ## §1. Flags. -/

/-- `Q_DEPTH`. -/
def qDepth : Nat := 8192
/-- `S_DEPTH`. -/
def sDepth : Nat := 4096
/-- `S_DEPTH_`. -/
def sDepthMask : UInt32 := 4095

/-- `IBV_SEND_FENCE`. -/
def ibvSendFence : Nat := 1
/-- `IBV_SEND_SIGNALED`. -/
def ibvSendSignaled : Nat := 2

/-- Whether a request with these `send_flags` generates a completion. -/
def isSignaled (sendFlags : Nat) : Bool := sendFlags &&& ibvSendSignaled != 0

/-- `send_flags` of a data-path send. -/
def dataFlags (sendCount : UInt32) : Nat :=
  if sendCount &&& sDepthMask = 0 then ibvSendSignaled else 0

/-- `poll_completion` of a data-path send. -/
def pollCompletion (sendCount : UInt32) : Bool := sendCount &&& sDepthMask == sDepthMask

/-- The phase of the counter survives its wrap-around. -/
theorem and_sDepthMask (k : Nat) : (UInt32.ofNat k &&& sDepthMask).toNat = k % sDepth := by
  rw [UInt32.toNat_and, UInt32.toNat_ofNat']
  show k % 2 ^ 32 &&& (2 ^ 12 - 1) = k % 4096
  rw [Nat.and_two_pow_sub_one_eq_mod, Nat.mod_mod_of_dvd k (by decide)]

/-- The first of `S_DEPTH` sends is signaled. -/
theorem dataFlags_ofNat (k : Nat) : isSignaled (dataFlags (UInt32.ofNat k)) = decide (k % sDepth = 0) := by
  have hand := and_sDepthMask k
  unfold dataFlags
  by_cases h : UInt32.ofNat k &&& sDepthMask = 0
  · rw [h] at hand
    rw [if_pos h, ← hand]
    rfl
  · have hne : k % sDepth ≠ 0 := fun hzero =>
      h (UInt32.toNat_inj.mp (hand.trans hzero))
    rw [if_neg h, decide_eq_false hne]
    rfl

/-- The last of them polls. -/
theorem pollCompletion_ofNat (k : Nat) :
    pollCompletion (UInt32.ofNat k) = decide (k % sDepth = sDepth - 1) := by
  have hand := and_sDepthMask k
  unfold pollCompletion
  by_cases h : UInt32.ofNat k &&& sDepthMask = sDepthMask
  · rw [h] at hand
    rw [h, ← hand]
    rfl
  · have hne : k % sDepth ≠ sDepth - 1 := fun heq =>
      h (UInt32.toNat_inj.mp (hand.trans heq))
    rw [decide_eq_false hne]
    simpa using h

/-! ## §2. The endpoint. -/

/-- Who posts a request, or polls. -/
inductive Path where
  | data
  | control
  deriving Repr, DecidableEq

/-- Where a data-path send is in `post_send`. -/
inductive SendPc where
  | enter
  /-- in `poll_cq` -/
  | polling
  /-- about to call `ibv_post_send` -/
  | post
  | done
  deriving Repr, DecidableEq

/-- A send of the data path, with the flags it was counted with. -/
structure DataSend where
  flags : Nat
  poll : Bool
  pc : SendPc
  deriving Repr, DecidableEq

/-- Where the control path is with this endpoint. -/
inductive ControlPc where
  | idle
  /-- posted, about to call `poll_cq` -/
  | posted
  | polling
  deriving Repr, DecidableEq

/-- Control messages, and polls, that the control path has not finished. -/
def ControlPc.messages : ControlPc → Nat
  | .idle => 0
  | _ => 1

/-- How many completions the control path is waiting for. -/
def ControlPc.polls : ControlPc → Nat
  | .polling => 1
  | _ => 0

/-- One endpoint: the count of its sends, its queue, and the two paths that use it. -/
structure Endpoint where
  sendCount : UInt32
  queue : Queue Path
  /-- the data-path sends, in the order they were counted -/
  sends : List DataSend
  control : ControlPc
  /-- control messages posted -/
  controls : Nat
  /-- signaled requests posted -/
  signaled : Nat
  /-- completions `poll_cq` was asked for -/
  asked : Nat
  /-- completions taken: the path that polled, and the path of the request -/
  taken : List (Path × Path)

/-- After `rc_qp_reset_to_init`. -/
def Endpoint.connected : Endpoint := ⟨0, .new, [], .idle, 0, 0, 0, []⟩

/-- `ibv_post_send`. -/
def Endpoint.ibvPostSend (e : Endpoint) (path : Path) (flags : Nat) : Endpoint :=
  { e with
    queue := e.queue.post path (isSignaled flags)
    signaled := e.signaled + (isSignaled flags).toNat }

/-- A poll of `path` has taken the completion of a request of `owner`. -/
def Endpoint.took (e : Endpoint) (path : Path) (q : Queue Path) (owner : Path) : Endpoint :=
  { e with queue := q, taken := e.taken ++ [(path, owner)] }

/-- `poll_cq(1, cq)` returns. -/
def Endpoint.pollCq (e : Endpoint) (path : Path) : Option Endpoint :=
  e.queue.poll.map fun r => e.took path r.1 r.2

/-- Send `j` goes on. -/
def Endpoint.setSend (e : Endpoint) (j : Nat) (d : DataSend) (pc : SendPc) : Endpoint :=
  { e with sends := e.sends.set j { d with pc := pc } }

/-- The steps of an endpoint. -/
inductive Action where
  /-- flags are derived from `send_count`, and it is increased -/
  | send
  /-- data-path send `j` goes on in `post_send` -/
  | run (j : Nat)
  /-- a heartbeat, a vote request or a vote ack is posted -/
  | control
  /-- the control path goes on -/
  | controlRun
  /-- the network completes a request -/
  | complete
  deriving Repr, DecidableEq

/-- One step. -/
def Endpoint.step (e : Endpoint) : Action → Option Endpoint
  | .send =>
      some { e with
        sendCount := e.sendCount + 1
        sends := e.sends ++ [⟨dataFlags e.sendCount, pollCompletion e.sendCount, .enter⟩] }
  | .run j =>
      match e.sends[j]? with
      | none => none
      | some d =>
          match d.pc with
          | .enter =>
              if d.poll then some { e.setSend j d .polling with asked := e.asked + 1 }
              else some (e.setSend j d .post)
          | .polling => (e.pollCq .data).map fun e => e.setSend j d .post
          | .post => some ((e.ibvPostSend .data d.flags).setSend j d .done)
          | .done => none
  | .control =>
      -- `post_send(.., 1, 0)`
      if e.control = .idle then
        some { e.ibvPostSend .control ibvSendFence with
          control := .posted, controls := e.controls + 1 }
      else none
  | .controlRun =>
      match e.control with
      | .idle => none
      | .posted => some { e with control := .polling, asked := e.asked + 1 }
      | .polling => (e.pollCq .control).map fun e => { e with control := .idle }
  | .complete => e.queue.complete.map fun q => { e with queue := q }

/-- A data-path send goes on only when those counted before it are posted. -/
def InOrder (e : Endpoint) : Action → Prop
  | .run j => ∀ d ∈ e.sends.take j, d.pc = .done
  | _ => True

instance (e : Endpoint) : (a : Action) → Decidable (InOrder e a)
  | .run j => inferInstanceAs (Decidable (∀ d ∈ e.sends.take j, d.pc = .done))
  | .send | .control | .controlRun | .complete => .isTrue trivial

/-- The data path alone, posted in order. -/
def DataOnly (e : Endpoint) (a : Action) : Prop := InOrder e a ∧ a ≠ .control

instance (e : Endpoint) (a : Action) : Decidable (DataOnly e a) :=
  inferInstanceAs (Decidable (_ ∧ _))

/-! ## §3. What a step does. -/

/-- The steps as a relation. -/
inductive Step (e : Endpoint) : Action → Endpoint → Prop where
  | send : Step e .send { e with
      sendCount := e.sendCount + 1
      sends := e.sends ++ [⟨dataFlags e.sendCount, pollCompletion e.sendCount, .enter⟩] }
  | poll {j : Nat} {d : DataSend} (hd : e.sends[j]? = some d) (hpc : d.pc = .enter)
      (hpoll : d.poll = true) :
      Step e (.run j) { e.setSend j d .polling with asked := e.asked + 1 }
  | noPoll {j : Nat} {d : DataSend} (hd : e.sends[j]? = some d) (hpc : d.pc = .enter)
      (hpoll : d.poll = false) : Step e (.run j) (e.setSend j d .post)
  | polled {j : Nat} {d : DataSend} {q : Queue Path} {owner : Path} (hd : e.sends[j]? = some d)
      (hpc : d.pc = .polling) (hq : e.queue.poll = some (q, owner)) :
      Step e (.run j) ((e.took .data q owner).setSend j d .post)
  | post {j : Nat} {d : DataSend} (hd : e.sends[j]? = some d) (hpc : d.pc = .post) :
      Step e (.run j) ((e.ibvPostSend .data d.flags).setSend j d .done)
  /-- a control message is not signaled -/
  | control (hpc : e.control = .idle) :
      Step e .control { e with
        queue := e.queue.post .control false, control := .posted, controls := e.controls + 1 }
  | controlPoll (hpc : e.control = .posted) :
      Step e .controlRun { e with control := .polling, asked := e.asked + 1 }
  | controlPolled {q : Queue Path} {owner : Path} (hpc : e.control = .polling)
      (hq : e.queue.poll = some (q, owner)) :
      Step e .controlRun { e.took .control q owner with control := .idle }
  | complete {q : Queue Path} (hq : e.queue.complete = some q) : Step e .complete { e with queue := q }

/-- Every step is one of these. -/
theorem step_cases {e e' : Endpoint} {a : Action} (h : e.step a = some e') : Step e a e' := by
  cases a with
  | send => cases h; exact .send
  | run j =>
      simp only [Endpoint.step] at h
      split at h
      next => cases h
      next d hd =>
        split at h
        next hpc =>
          split at h
          next hpoll => cases h; exact .poll hd hpc hpoll
          next hpoll => cases h; exact .noPoll hd hpc (Bool.not_eq_true _ ▸ hpoll)
        next hpc =>
          obtain ⟨e₁, hpollCq, rfl⟩ := Option.map_eq_some_iff.mp h
          obtain ⟨⟨q, owner⟩, hq, rfl⟩ := Option.map_eq_some_iff.mp hpollCq
          exact .polled hd hpc hq
        next hpc => cases h; exact .post hd hpc
        next => cases h
  | control =>
      simp only [Endpoint.step] at h
      split at h
      next hpc => cases h; exact .control hpc
      next => cases h
  | controlRun =>
      simp only [Endpoint.step] at h
      split at h
      next => cases h
      next hpc => cases h; exact .controlPoll hpc
      next hpc =>
        obtain ⟨e₁, hpollCq, rfl⟩ := Option.map_eq_some_iff.mp h
        obtain ⟨⟨q, owner⟩, hq, rfl⟩ := Option.map_eq_some_iff.mp hpollCq
        exact .controlPolled hpc hq
  | complete =>
      obtain ⟨q, hq, rfl⟩ := Option.map_eq_some_iff.mp h
      exact .complete hq

/-! ## §4. The books of the completion queue. -/

/-- Data-path sends inside `poll_cq`. -/
def pollsOf (sends : List DataSend) : Nat := sends.countP (·.pc = .polling)

/-- What holds in every run: only data-path requests are signaled, whoever takes
their completions. -/
structure Ledger (e : Endpoint) : Prop where
  signaled : e.signaled = e.taken.length + e.queue.pending.length
  pending : ∀ p ∈ e.queue.pending, p.1 < e.queue.posted ∧ p.2 = .data
  owner : ∀ t ∈ e.taken, t.2 = .data
  completed : e.queue.completed ≤ e.queue.posted
  controls : e.controls = e.taken.countP (·.1 = .control) + e.control.messages
  asked : e.asked = e.taken.length + pollsOf e.sends + e.control.polls

/-- An endpoint that has just been connected. -/
theorem Ledger.connected : Ledger .connected where
  signaled := rfl
  pending p hp := by cases hp
  owner t ht := by cases ht
  completed := Nat.le_refl 0
  controls := rfl
  asked := rfl

/-- A completion is taken. -/
theorem Ledger.took {e : Endpoint} {q : Queue Path} {owner : Path} (h : Ledger e)
    (hq : e.queue.poll = some (q, owner)) (path : Path) :
    e.signaled = (e.taken ++ [(path, owner)]).length + q.pending.length
      ∧ (∀ p ∈ q.pending, p.1 < q.posted ∧ p.2 = .data)
      ∧ (∀ t ∈ e.taken ++ [(path, owner)], t.2 = .data) ∧ q.completed ≤ q.posted := by
  obtain ⟨i, rest, hpending, -, rfl⟩ := Queue.poll_eq hq
  have hsignaled := h.signaled
  have hmem := h.pending
  rw [hpending] at hsignaled hmem
  refine ⟨?_, fun p hp => hmem p (List.mem_cons_of_mem _ hp), fun t ht => ?_, h.completed⟩
  · rw [List.length_cons] at hsignaled
    rw [List.length_append, List.length_singleton]
    show _ = _ + rest.length
    omega
  · rcases List.mem_append.mp ht with hold | hnew
    · exact h.owner t hold
    · rw [List.mem_singleton.mp hnew]
      exact (hmem (i, owner) List.mem_cons_self).2

/-- A data-path send goes on: one poll more or less, or none. -/
theorem pollsOf_set {sends : List DataSend} {j : Nat} {d : DataSend} (hd : sends[j]? = some d)
    (pc : SendPc) :
    pollsOf (sends.set j { d with pc := pc }) + (if d.pc = .polling then 1 else 0)
      = pollsOf sends + if pc = .polling then 1 else 0 := by
  obtain ⟨hlt, hget⟩ := List.getElem?_eq_some_iff.mp hd
  have hpos : d.pc = .polling → 0 < pollsOf sends := fun hpc =>
    List.countP_pos_iff.mpr ⟨d, List.mem_of_getElem? hd, by simpa using hpc⟩
  unfold pollsOf at hpos ⊢
  rw [List.countP_set hlt, hget]
  simp only [decide_eq_true_eq]
  by_cases hpc : d.pc = .polling
  · have hlt := hpos hpc
    rw [if_pos hpc]
    omega
  · rw [if_neg hpc]
    omega

/-- A data-path request is posted, signaled or not. -/
theorem Ledger.post {e : Endpoint} (h : Ledger e) {j : Nat} {d : DataSend} (hd : e.sends[j]? = some d)
    (hpc : d.pc = .post) : Ledger ((e.ibvPostSend .data d.flags).setSend j d .done) := by
  have hasked := h.asked
  have hcontrols := h.controls
  have hpolls := pollsOf_set hd .done
  have hsignaled := h.signaled
  rw [hpc, if_neg nofun, if_neg nofun] at hpolls
  -- what was pending stays behind the new request
  have hold : ∀ p ∈ e.queue.pending, p.1 < e.queue.posted + 1 ∧ p.2 = .data := fun p hp =>
    ⟨Nat.lt_succ_of_lt (h.pending p hp).1, (h.pending p hp).2⟩
  refine ⟨?_, ?_, h.owner, Nat.le_succ_of_le h.completed, hcontrols, ?_⟩ <;>
    dsimp only [Endpoint.setSend, Endpoint.ibvPostSend, Queue.post]
  · cases isSignaled d.flags with
    | true =>
        rw [if_pos rfl, List.length_append, List.length_singleton, Bool.toNat_true]
        omega
    | false => exact hsignaled
  · intro p hp
    split at hp
    · rcases List.mem_append.mp hp with hmem | hnew
      · exact hold p hmem
      · rw [List.mem_singleton.mp hnew]
        exact ⟨Nat.lt_succ_self _, rfl⟩
    · exact hold p hp
  · omega

/-- **The step lemma.** -/
theorem Ledger.preserved {e e' : Endpoint} {a : Action} (h : Ledger e) (hstep : Step e a e') :
    Ledger e' := by
  have hasked := h.asked
  have hcontrols := h.controls
  cases hstep with
  | send =>
      refine ⟨h.signaled, h.pending, h.owner, h.completed, hcontrols, ?_⟩
      show e.asked = _ + pollsOf (e.sends ++ [_]) + _
      rw [pollsOf, List.countP_append]
      exact hasked
  | poll hd hpc hpoll =>
      have hpolls := pollsOf_set hd .polling
      rw [hpc, if_neg nofun, if_pos rfl] at hpolls
      refine ⟨h.signaled, h.pending, h.owner, h.completed, hcontrols, ?_⟩
      dsimp only [Endpoint.setSend]
      omega
  | noPoll hd hpc hpoll =>
      have hpolls := pollsOf_set hd .post
      rw [hpc, if_neg nofun, if_neg nofun] at hpolls
      refine ⟨h.signaled, h.pending, h.owner, h.completed, hcontrols, ?_⟩
      dsimp only [Endpoint.setSend]
      omega
  | polled hd hpc hq =>
      obtain ⟨hsignaled, hpending, howner, hcompleted⟩ := h.took hq .data
      have hpolls := pollsOf_set hd .post
      rw [hpc, if_pos rfl, if_neg nofun] at hpolls
      refine ⟨hsignaled, hpending, howner, hcompleted, ?_, ?_⟩ <;>
        dsimp only [Endpoint.setSend, Endpoint.took]
      · rw [List.countP_append]
        exact hcontrols
      · rw [List.length_append, List.length_singleton]
        omega
  | post hd hpc => exact h.post hd hpc
  | control hpc =>
      rw [hpc] at hcontrols hasked
      refine ⟨h.signaled, fun p hp => ?_, h.owner, Nat.le_succ_of_le h.completed, ?_, hasked⟩
      · exact ⟨Nat.lt_succ_of_lt (h.pending p hp).1, (h.pending p hp).2⟩
      · exact congrArg (· + 1) hcontrols
  | controlPoll hpc =>
      rw [hpc] at hcontrols hasked
      exact ⟨h.signaled, h.pending, h.owner, h.completed, hcontrols, congrArg (· + 1) hasked⟩
  | controlPolled hpc hq =>
      obtain ⟨hsignaled, hpending, howner, hcompleted⟩ := h.took hq .control
      rw [hpc] at hcontrols hasked
      refine ⟨hsignaled, hpending, howner, hcompleted, ?_, ?_⟩ <;> dsimp only [Endpoint.took]
      · rw [List.countP_append]
        exact hcontrols
      · rw [List.length_append, List.length_singleton]
        exact hasked.trans (Nat.add_right_comm ..)
  | complete hq =>
      obtain ⟨hlt, rfl⟩ := Queue.complete_eq hq
      exact ⟨h.signaled, h.pending, h.owner, hlt, hcontrols, hasked⟩

/-- **The run lemma.** -/
theorem reaches_ledger {ok : Endpoint → Action → Prop} {e : Endpoint}
    (h : Reaches Endpoint.step ok .connected e) : Ledger e :=
  h.invariant .connected fun _ _ _ hledger _ hstep => hledger.preserved (step_cases hstep)

/-! ## §5. The data path alone. -/

/-- The send whose turn it is, the queue, and the polls that have not returned. -/
inductive Turn (q : Queue Path) : Nat → Option DataSend → Prop where
  | rest (h : Cadence sDepth q) : Turn q 0 none
  | enter {d : DataSend} (hpc : d.pc = .enter) (h : Cadence sDepth q) : Turn q 0 (some d)
  | polling {d : DataSend} (hpc : d.pc = .polling) (hpoll : d.poll = true) (h : Cadence sDepth q) :
      Turn q 1 (some d)
  | plain {d : DataSend} (hpc : d.pc = .post) (hpoll : d.poll = false) (h : Cadence sDepth q) :
      Turn q 0 (some d)
  | polled {d : DataSend} (hpc : d.pc = .post) (h : Polled sDepth q) : Turn q 0 (some d)

/-- Without control messages, the data path posting in order. -/
structure Flow (e : Endpoint) : Prop where
  count : e.sendCount = UInt32.ofNat e.sends.length
  send : ∀ j d, e.sends[j]? = some d →
    d.flags = dataFlags (UInt32.ofNat j) ∧ d.poll = pollCompletion (UInt32.ofNat j)
  posted : e.queue.posted ≤ e.sends.length
  behind : ∀ j d, e.sends[j]? = some d → j < e.queue.posted → d.pc = .done
  ahead : ∀ j d, e.sends[j]? = some d → e.queue.posted < j → d.pc = .enter
  turn : ∃ polls, Turn e.queue polls e.sends[e.queue.posted]? ∧ e.asked = e.taken.length + polls

section Flow
variable {e e' : Endpoint} {a : Action} {q q' : Queue Path} {polls : Nat} {o : Option DataSend}
  {d : DataSend}

/-- The send whose turn it is has not been posted. -/
theorem Turn.not_done (h : Turn q polls (some d)) : d.pc ≠ .done := by
  cases h with
  | enter hpc | polling hpc | plain hpc | polled hpc => rw [hpc]; exact nofun

/-- A completion arrives. -/
theorem Turn.complete (h : Turn q polls o) (hq : q.complete = some q') : Turn q' polls o := by
  cases h with
  | rest h => exact .rest (h.complete hq)
  | enter hpc h => exact .enter hpc (h.complete hq)
  | polling hpc hpoll h => exact .polling hpc hpoll (h.complete hq)
  | plain hpc hpoll h => exact .plain hpc hpoll (h.complete hq)
  | polled hpc h => exact .polled hpc (h.complete hq)

theorem Flow.connected : Flow .connected where
  count := rfl
  send j d hd := by cases hd
  posted := Nat.le_refl 0
  behind j d hd := by cases hd
  ahead j d hd := by cases hd
  turn := ⟨0, .rest .new, rfl⟩

/-- Only the send whose turn it is can go on. -/
theorem Flow.run_turn (h : Flow e) {j : Nat} (hok : InOrder e (.run j)) (hd : e.sends[j]? = some d)
    (hpc : d.pc ≠ .done) : j = e.queue.posted := by
  obtain ⟨polls, hturn, -⟩ := h.turn
  rcases Nat.lt_trichotomy j e.queue.posted with hlt | heq | hgt
  · exact absurd (h.behind j d hd hlt) hpc
  · exact heq
  · have hlen := (List.getElem?_eq_some_iff.mp hd).1
    obtain ⟨d', hd'⟩ : ∃ d', e.sends[e.queue.posted]? = some d' :=
      ⟨_, List.getElem?_eq_getElem (Nat.lt_trans hgt hlen)⟩
    rw [hd'] at hturn
    have hmem : d' ∈ e.sends.take j :=
      List.mem_of_getElem? ((List.getElem?_take_of_lt hgt).trans hd')
    exact absurd (hok d' hmem) hturn.not_done

/-- That send goes on, without being posted. -/
theorem Flow.move (h : Flow e) (hd : e.sends[e.queue.posted]? = some d) {pc : SendPc}
    (hsends : e'.sends = e.sends.set e.queue.posted { d with pc := pc })
    (hcount : e'.sendCount = e.sendCount) (hposted : e'.queue.posted = e.queue.posted)
    (hturn : Turn e'.queue polls (some { d with pc := pc })) (hasked : e'.asked = e'.taken.length + polls) :
    Flow e' := by
  have hlt := (List.getElem?_eq_some_iff.mp hd).1
  have hself : e'.sends[e.queue.posted]? = some { d with pc := pc } := by
    rw [hsends, List.getElem?_set_self hlt]
  have hne : ∀ j, j ≠ e.queue.posted → e'.sends[j]? = e.sends[j]? := fun j hj => by
    rw [hsends, List.getElem?_set_ne hj.symm]
  refine ⟨?_, fun j d' hd' => ?_, ?_, fun j d' hd' hj => ?_, fun j d' hd' hj => ?_, polls, ?_, hasked⟩
  · rw [hcount, hsends, List.length_set]
    exact h.count
  · rw [hsends] at hd'
    rcases get_set hd' with ⟨rfl, rfl⟩ | ⟨-, hold⟩
    · exact h.send _ d hd
    · exact h.send j d' hold
  · rw [hposted, hsends, List.length_set]
    exact h.posted
  · rw [hposted] at hj
    exact h.behind j d' (hne j (by omega) ▸ hd') hj
  · rw [hposted] at hj
    exact h.ahead j d' (hne j (by omega) ▸ hd') hj
  · rw [hposted, hself]
    exact hturn

/-- The queue after the post of the send whose turn it is. -/
theorem Turn.post (h : Turn q polls (some d)) (hpc : d.pc = .post)
    (hflags : d.flags = dataFlags (UInt32.ofNat q.posted))
    (hpoll : d.poll = pollCompletion (UInt32.ofNat q.posted)) :
    polls = 0 ∧ Cadence sDepth (q.post .data (isSignaled d.flags)) := by
  rw [hflags, dataFlags_ofNat]
  rw [pollCompletion_ofNat] at hpoll
  have hlt := Nat.mod_lt q.posted (show 0 < sDepth by decide)
  cases h with
  | enter hpc' | polling hpc' => rw [hpc'] at hpc; cases hpc
  | plain hpc' hnot hcad =>
      rw [hnot] at hpoll
      have hlast := of_decide_eq_false hpoll.symm
      refine ⟨rfl, ?_⟩
      by_cases hzero : q.posted % sDepth = 0
      · rw [decide_eq_true hzero]
        exact hcad.post_signaled (by decide) hzero
      · rw [decide_eq_false hzero]
        exact hcad.post_plain hzero (by unfold sDepth at *; omega)
  | polled hpc' hcad =>
      -- the last request of a period is the one after a poll, and never signaled
      have hzero : q.posted % sDepth ≠ 0 := by
        rw [hcad.turn]
        decide
      rw [decide_eq_false hzero]
      exact ⟨rfl, hcad.post (by decide)⟩

/-- The send whose turn it is is posted. -/
theorem Flow.post (h : Flow e) (hd : e.sends[e.queue.posted]? = some d) (hpc : d.pc = .post) :
    Flow ((e.ibvPostSend .data d.flags).setSend e.queue.posted d .done) := by
  have hlt := (List.getElem?_eq_some_iff.mp hd).1
  obtain ⟨hflags, hpoll⟩ := h.send _ d hd
  obtain ⟨polls, hturn, hasked⟩ := h.turn
  rw [hd] at hturn
  obtain ⟨rfl, hcad⟩ := hturn.post hpc hflags hpoll
  have hne : ∀ j, j ≠ e.queue.posted →
      (e.sends.set e.queue.posted { d with pc := .done })[j]? = e.sends[j]? := fun j hj =>
    List.getElem?_set_ne hj.symm
  refine ⟨?_, fun j d' hd' => ?_, ?_, fun j d' hd' hj => ?_, fun j d' hd' hj => ?_, 0, ?_, hasked⟩
  · show e.sendCount = UInt32.ofNat (e.sends.set _ _).length
    rw [List.length_set]
    exact h.count
  · rcases get_set hd' with ⟨rfl, rfl⟩ | ⟨-, hold⟩
    · exact ⟨hflags, hpoll⟩
    · exact h.send j d' hold
  · show e.queue.posted + 1 ≤ (e.sends.set _ _).length
    rw [List.length_set]
    exact hlt
  · rcases get_set hd' with ⟨-, rfl⟩ | ⟨hne', hold⟩
    · rfl
    · have hj' : j < e.queue.posted + 1 := hj
      exact h.behind j d' hold (by omega)
  · have hj' : e.queue.posted + 1 < j := hj
    exact h.ahead j d' (hne j (by omega) ▸ hd') (by omega)
  · -- the next send, if there is one, has not begun
    show Turn (e.queue.post .data (isSignaled d.flags)) 0
      (e.sends.set e.queue.posted { d with pc := .done })[e.queue.posted + 1]?
    rw [hne _ (by omega)]
    cases hnext : e.sends[e.queue.posted + 1]? with
    | none => exact .rest hcad
    | some d' => exact .enter (h.ahead _ d' hnext (Nat.lt_succ_self _)) hcad

/-- A send that is counted waits behind the others. -/
theorem Flow.counted (h : Flow e) :
    Flow { e with
      sendCount := e.sendCount + 1
      sends := e.sends ++ [⟨dataFlags e.sendCount, pollCompletion e.sendCount, .enter⟩] } := by
  obtain ⟨polls, hturn, hasked⟩ := h.turn
  have hposted := h.posted
  refine ⟨?_, fun j d' hd' => ?_, ?_, fun j d' hd' hj => ?_, fun j d' hd' hj => ?_, polls, ?_, hasked⟩
  · show e.sendCount + 1 = UInt32.ofNat (e.sends ++ [_]).length
    rw [List.length_append, List.length_singleton, UInt32.ofNat_add, h.count]
    rfl
  · rcases get_concat hd' with ⟨-, hold⟩ | ⟨rfl, rfl⟩
    · exact h.send j d' hold
    · rw [h.count]
      exact ⟨rfl, rfl⟩
  · show _ ≤ (e.sends ++ [_]).length
    rw [List.length_append]
    exact Nat.le_add_right_of_le hposted
  · rcases get_concat hd' with ⟨-, hold⟩ | ⟨rfl, -⟩
    · exact h.behind j d' hold hj
    · exact absurd hj (Nat.not_lt.mpr hposted)
  · rcases get_concat hd' with ⟨-, hold⟩ | ⟨-, rfl⟩
    · exact h.ahead j d' hold hj
    · rfl
  · show Turn e.queue polls (e.sends ++ [_])[e.queue.posted]?
    by_cases hlt : e.queue.posted < e.sends.length
    · rw [List.getElem?_append_left hlt]
      exact hturn
    · -- all sends are posted: it is the new one's turn
      have heq : e.queue.posted = e.sends.length := by omega
      rw [heq, List.getElem?_eq_none (Nat.le_refl _)] at hturn
      rw [heq, List.getElem?_concat_length]
      cases hturn with
      | rest hcad => exact .enter rfl hcad

/-- **The step lemma of the data path.** -/
theorem Flow.preserved (h : Flow e) (hidle : e.control = .idle) (hok : DataOnly e a)
    (hstep : Step e a e') : Flow e' := by
  obtain ⟨polls, hturn, hasked⟩ := h.turn
  cases hstep with
  | send => exact h.counted
  | @poll j d hd hpc hpoll =>
      obtain rfl := h.run_turn hok.1 hd (by rw [hpc]; exact nofun)
      rw [hd] at hturn
      cases hturn with
      | enter _ hcad => exact h.move hd rfl rfl rfl (.polling rfl hpoll hcad) (congrArg (· + 1) hasked)
      | polling hpc' | plain hpc' | polled hpc' => rw [hpc] at hpc'; cases hpc'
  | @noPoll j d hd hpc hpoll =>
      obtain rfl := h.run_turn hok.1 hd (by rw [hpc]; exact nofun)
      rw [hd] at hturn
      cases hturn with
      | enter _ hcad => exact h.move hd rfl rfl rfl (.plain rfl hpoll hcad) hasked
      | polling hpc' | plain hpc' | polled hpc' => rw [hpc] at hpc'; cases hpc'
  | @polled j d q owner hd hpc hq =>
      obtain rfl := h.run_turn hok.1 hd (by rw [hpc]; exact nofun)
      have hposted : q.posted = e.queue.posted := by
        obtain ⟨i, rest, -, -, rfl⟩ := Queue.poll_eq hq
        rfl
      have hpoll := (h.send _ d hd).2
      rw [pollCompletion_ofNat] at hpoll
      rw [hd] at hturn
      cases hturn with
      | polling _ hdpoll hcad =>
          rw [hdpoll] at hpoll
          have hpolled := hcad.poll (by decide) (of_decide_eq_true hpoll.symm) hq
          refine h.move hd rfl rfl hposted (.polled rfl hpolled) ?_
          show e.asked = (e.taken ++ [_]).length + 0
          rw [List.length_append]
          exact hasked
      | enter hpc' | plain hpc' | polled hpc' => rw [hpc] at hpc'; cases hpc'
  | @post j d hd hpc =>
      obtain rfl := h.run_turn hok.1 hd (by rw [hpc]; exact nofun)
      exact h.post hd hpc
  | control => exact absurd rfl hok.2
  | controlPoll hpc | controlPolled hpc => rw [hidle] at hpc; cases hpc
  | complete hq =>
      have hposted := (Queue.complete_eq hq).2
      subst hposted
      exact ⟨h.count, h.send, h.posted, h.behind, h.ahead, polls, hturn.complete hq, hasked⟩

/-- Every state in which no control message has been posted. -/
theorem reaches_flow {ok : Endpoint → Action → Prop} (hweak : ∀ e a, ok e a → InOrder e a)
    (h : Reaches Endpoint.step ok .connected e) (hnone : e.controls = 0) : Flow e := by
  suffices hinv : Ledger e ∧ (e.controls = 0 → Flow e) from hinv.2 hnone
  refine h.invariant (I := fun e => Ledger e ∧ (e.controls = 0 → Flow e))
    ⟨.connected, fun _ => .connected⟩ fun e a e' hinv hok hstep => ?_
  have hcases := step_cases hstep
  refine ⟨hinv.1.preserved hcases, fun hzero => ?_⟩
  have hold : e.controls = 0 ∧ a ≠ .control := by
    cases hcases with
    | control => exact absurd hzero (Nat.succ_ne_zero _)
    | send | poll | noPoll | polled | post | controlPoll | controlPolled | complete =>
        exact ⟨hzero, nofun⟩
  have hidle : e.control = .idle := by
    have hcontrols := hinv.1.controls
    rw [hold.1] at hcontrols
    cases hpc : e.control with
    | idle => rfl
    | posted | polling =>
        rw [hpc] at hcontrols
        simp only [ControlPc.messages] at hcontrols
        omega
  exact (hinv.2 hold.1).preserved hidle ⟨hweak e a hok, hold.2⟩ hcases

/-- The data path sends no control message. -/
theorem controls_of_dataOnly {e₀ : Endpoint} (h : Reaches Endpoint.step DataOnly e₀ e) :
    e.controls = e₀.controls := by
  refine h.invariant (I := fun e => e.controls = e₀.controls) rfl fun e a e' hsame hok hstep => ?_
  cases step_cases hstep with
  | control => exact absurd rfl hok.2
  | send | poll | noPoll | polled | post | controlPoll | controlPolled | complete => exact hsame

end Flow

/-! ## §6. Flow control. -/

/-- **Send-queue flow control.**  However many sends have been posted on an endpoint,
wrap-arounds of `send_count` included: a poll finds exactly one signaled send whose
completion has not been taken, and it has been posted; and no more than `Q_DEPTH`
sends are not known to be complete. -/
theorem send_queue_flow {e : Endpoint} (h : Reaches Endpoint.step DataOnly .connected e) :
    (∀ (j : Nat) (d : DataSend), e.sends[j]? = some d → d.pc = .polling →
      ∃ i, e.queue.pending = [(i, .data)] ∧ i < e.queue.posted)
    ∧ e.queue.posted ≤ e.queue.known + qDepth := by
  have hledger := reaches_ledger h
  have hflow := reaches_flow (fun _ _ hok => hok.1) h (controls_of_dataOnly h)
  obtain ⟨polls, hturn, -⟩ := hflow.turn
  constructor
  · intro j d hd hpc
    -- a send that polls is the one whose turn it is
    have hj : j = e.queue.posted := by
      rcases Nat.lt_trichotomy j e.queue.posted with hlt | heq | hgt
      · rw [hflow.behind j d hd hlt] at hpc
        cases hpc
      · exact heq
      · rw [hflow.ahead j d hd hgt] at hpc
        cases hpc
    subst hj
    have hpoll := (hflow.send _ d hd).2
    rw [pollCompletion_ofNat] at hpoll
    rw [hd] at hturn
    cases hturn with
    | polling _ hdpoll hcad =>
        rw [hdpoll] at hpoll
        have hlast := of_decide_eq_true hpoll.symm
        obtain ⟨i, owner, hpending, hlt, -⟩ := hcad.one_pending (by rw [hlast]; decide)
        have howner := (hledger.pending (i, owner) (by rw [hpending]; exact List.mem_singleton_self _)).2
        dsimp only at howner
        exact ⟨i, by rw [hpending, howner], hlt⟩
    | enter hpc' | plain hpc' | polled hpc' => rw [hpc] at hpc'; cases hpc'
  · have hle : e.queue.posted + 2 ≤ e.queue.known + 2 * sDepth := by
      generalize e.sends[e.queue.posted]? = o at hturn
      cases hturn with
      | rest hcad | enter _ hcad | polling _ _ hcad | plain _ _ hcad =>
          exact hcad.outstanding (by decide)
      | polled _ hcad => exact hcad.outstanding (by decide)
    unfold sDepth at hle
    unfold qDepth
    omega

/-- The send whose turn it is may go on. -/
theorem Flow.inOrder {e : Endpoint} (h : Flow e) : InOrder e (.run e.queue.posted) := by
  intro d hd
  obtain ⟨j, hj, hget⟩ := List.getElem_of_mem hd
  rw [List.length_take] at hj
  rw [List.getElem_take] at hget
  exact h.behind j d (List.getElem?_eq_some_iff.mpr ⟨by omega, hget⟩) (by omega)

/-- One more send is counted, and its turn comes. -/
theorem exists_counted {e : Endpoint} (h : Reaches Endpoint.step DataOnly .connected e)
    (hall : e.queue.posted = e.sends.length) :
    ∃ e', Reaches Endpoint.step DataOnly .connected e' ∧ e'.queue = e.queue
      ∧ e'.sends.length = e.sends.length + 1
      ∧ e'.sends[e'.queue.posted]? = some ⟨dataFlags (UInt32.ofNat e.queue.posted),
        pollCompletion (UInt32.ofNat e.queue.posted), .enter⟩ := by
  have hcount := (reaches_flow (fun _ _ hok => hok.1) h (controls_of_dataOnly h)).count
  refine ⟨_, h.tail (show DataOnly e .send from ⟨trivial, nofun⟩) rfl, rfl, ?_, ?_⟩
  · exact List.length_append
  · show (e.sends ++ [_])[e.queue.posted]? = _
    rw [hall, List.getElem?_concat_length, hcount]

section Run
variable {e : Endpoint} {j : Nat} {d : DataSend}

theorem setSend_get (hd : e.sends[j]? = some d) (pc : SendPc) :
    (e.setSend j d pc).sends[j]? = some { d with pc := pc } :=
  List.getElem?_set_self (List.getElem?_eq_some_iff.mp hd).1

/-- A send that does not poll goes on to post. -/
theorem step_noPoll (hd : e.sends[j]? = some d) (hpc : d.pc = .enter) (hpoll : d.poll = false) :
    e.step (.run j) = some (e.setSend j d .post) := by
  simp only [Endpoint.step, hd, hpc, hpoll]
  rfl

/-- One that does goes on to poll. -/
theorem step_poll (hd : e.sends[j]? = some d) (hpc : d.pc = .enter) (hpoll : d.poll = true) :
    e.step (.run j) = some { e.setSend j d .polling with asked := e.asked + 1 } := by
  simp only [Endpoint.step, hd, hpc, hpoll]
  rfl

/-- A send is posted. -/
theorem step_post (hd : e.sends[j]? = some d) (hpc : d.pc = .post) :
    e.step (.run j) = some ((e.ibvPostSend .data d.flags).setSend j d .done) := by
  simp only [Endpoint.step, hd, hpc]

/-- A run may go on with the send whose turn it is. -/
theorem tail_turn {e' : Endpoint} (h : Reaches Endpoint.step DataOnly .connected e)
    (hstep : e.step (.run e.queue.posted) = some e') :
    Reaches Endpoint.step DataOnly .connected e' :=
  h.tail ⟨(reaches_flow (fun _ _ hok => hok.1) h (controls_of_dataOnly h)).inOrder, nofun⟩ hstep

end Run

/-- The first `k` sends can be posted without a poll. -/
theorem exists_posted {k : Nat} (hk : k < sDepth) :
    ∃ e, Reaches Endpoint.step DataOnly .connected e ∧ e.queue.posted = k ∧ e.sends.length = k := by
  induction k with
  | zero => exact ⟨_, .refl, rfl, rfl⟩
  | succ k ih =>
      obtain ⟨e, h, hposted, hlen⟩ := ih (by omega)
      obtain ⟨e₁, h₁, hq₁, hlen₁, hd₁⟩ := exists_counted h (hposted.trans hlen.symm)
      have hno : pollCompletion (UInt32.ofNat e.queue.posted) = false := by
        rw [pollCompletion_ofNat, decide_eq_false]
        rw [hposted, Nat.mod_eq_of_lt (by omega)]
        omega
      have h₂ := tail_turn h₁ (step_noPoll hd₁ rfl hno)
      have h₃ := tail_turn h₂ (step_post (setSend_get hd₁ .post) rfl)
      refine ⟨_, h₃, ?_, ?_⟩
      · show e₁.queue.posted + 1 = k + 1
        rw [hq₁, hposted]
      · show ((e₁.sends.set _ _).set _ _).length = k + 1
        rw [List.length_set, List.length_set, hlen₁, hlen]

/-- The first poll, before send 4095: it waits for send 0, which is signaled. -/
theorem send_queue_flow_firstPoll :
    ∃ e, Reaches Endpoint.step DataOnly .connected e ∧ e.queue.posted = 4095
      ∧ (∃ d ∈ e.sends, d.pc = .polling) ∧ e.queue.pending.length = 1 := by
  obtain ⟨e, h, hposted, hlen⟩ := exists_posted (k := 4095) (by decide)
  obtain ⟨e₁, h₁, hq₁, hlen₁, hd₁⟩ := exists_counted h (hposted.trans hlen.symm)
  have hpoll : pollCompletion (UInt32.ofNat e.queue.posted) = true := by
    rw [pollCompletion_ofNat, hposted]
    rfl
  have h₂ := tail_turn h₁ (step_poll hd₁ rfl hpoll)
  obtain ⟨hone, -⟩ := send_queue_flow h₂
  obtain ⟨i, hpending, -⟩ := hone _ _ (setSend_get hd₁ .polling) rfl
  refine ⟨_, h₂, ?_, ?_, ?_⟩
  · show e₁.queue.posted = 4095
    rw [hq₁, hposted]
  · exact ⟨_, List.mem_of_getElem? (setSend_get hd₁ .polling), rfl⟩
  · rw [hpending]
    rfl

end RdmaPaxos.Rc
