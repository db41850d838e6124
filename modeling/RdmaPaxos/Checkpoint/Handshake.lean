/-
  RdmaPaxos.Checkpoint.Handshake
  ──────────────────────────────
  **THE DISCONNECT / RECONNECT HANDSHAKE** (`disconnct_inner`,
  `check_point_condtion`, `reconnect_inner_set_flag` in `ev_mgr/ev_mgr.c`, the
  command loop of `check_point_thread.c`).

  Every `disconnect` command starts a thread in `disconnct_inner`, every
  `reconnect` command a thread that sets `restore_flag`; the replica thread
  looks at `checkpoint_flag` at the head of its loop.  Each access to a flag is
  one step, so threads may pass a test together and flags may be stale.

    • `safe_of_orderly` — if a disconnect command comes only when no earlier one
      is still running, and a reconnect command only when the replica thread
      waits for one, the shutdown is over and no other reconnect is on its way,
      then shutdowns, approvals and relaunches pair up;
    • `safe_fails` — two disconnect commands in a row shut RDMA down twice for
      one approval.
-/
import RdmaPaxos.Lib.Run
import RdmaPaxos.Lib.Ticket
import Mathlib.Data.List.Basic

namespace RdmaPaxos.Checkpoint

open RdmaPaxos.Run
open RdmaPaxos.Ticket (get_concat)

/-! ## §1. State. -/

/-- `check_point_state`. -/
inductive Flag where
  | noDisconnected
  | disconnectedRequest
  | disconnectedApprove
  deriving Repr, DecidableEq

/-- How `disconnct_inner` returned. -/
inductive Outcome where
  /-- the flag was not `NO_DISCONNECTED` to begin with -/
  | notAsked
  /-- the flag went back to `NO_DISCONNECTED` -/
  | rejected
  /-- it was neither approved nor rejected when looked at again -/
  | neither
  /-- the value of `dare_rdma_shutdown` -/
  | shutDown (ret : Int)
  deriving Repr, DecidableEq

/-- The value returned. -/
def Outcome.ret : Outcome → Int
  | .notAsked => 0
  | .rejected => 1
  | .neither => 0
  | .shutDown ret => ret

/-- Program counter of a thread in `disconnct_inner`. -/
inductive DiscPc where
  /-- about to compare with `NO_DISCONNECTED` -/
  | test
  /-- about to write `DISCONNECTED_REQUEST` -/
  | setRequest
  /-- waiting for approval -/
  | spin
  /-- about to compare with `DISCONNECTED_APPROVE` -/
  | testApprove
  /-- about to call `dare_rdma_shutdown` -/
  | shutdown
  /-- inside it -/
  | running
  /-- about to write `NO_DISCONNECTED` -/
  | clear (ret : Int)
  /-- about to compare with `NO_DISCONNECTED` again -/
  | testNo
  | done (outcome : Outcome)
  deriving Repr, DecidableEq

/-- The thread has returned. -/
def DiscPc.isDone : DiscPc → Bool
  | .done _ => true
  | _ => false

/-- Program counter of the replica thread. -/
inductive LoopPc where
  /-- anywhere in its loop up to the test of `checkpoint_flag` -/
  | loop
  /-- about to count the connections -/
  | count
  /-- about to write `DISCONNECTED_APPROVE` -/
  | approve
  /-- about to write `NO_DISCONNECTED` -/
  | reject
  /-- waiting for `restore_flag` -/
  | waiting
  /-- about to call `reconnect_inner` -/
  | relaunch
  /-- about to clear `restore_flag` -/
  | clear
  deriving Repr, DecidableEq

/-- What has happened since one approval was given: the number of connections at
that moment, the shutdowns started and finished since, the reconnect commands
issued since that have arrived; and the last two numbers at each call of
`reconnect_inner`. -/
structure Approval where
  connections : Nat
  started : Nat
  finished : Nat
  arrived : Nat
  relaunches : List (Nat × Nat)
  deriving Repr, DecidableEq

/-- The flags, the threads of the two commands, and the replica thread. -/
structure State where
  /-- `checkpoint_flag` -/
  flag : Flag
  /-- `restore_flag` -/
  restoreFlag : Bool
  /-- `HASH_COUNT(replica_tcp_map)` -/
  connections : Nat
  replica : LoopPc
  /-- the threads in `disconnct_inner`, in order of their commands -/
  threads : List DiscPc
  /-- reconnect threads that have not run, each with the number of approvals
  given before its command -/
  pending : List Nat
  /-- the approvals, newest first -/
  approvals : List Approval
  /-- shutdowns started with no approval before them -/
  unapproved : Nat
  deriving Repr, DecidableEq

/-- Nothing asked for, with `connections` open. -/
def initial (connections : Nat) : State where
  flag := .noDisconnected
  restoreFlag := false
  connections := connections
  replica := .loop
  threads := []
  pending := []
  approvals := []
  unapproved := 0

/-! ## §2. Steps. -/

/-- Record something with the latest approval. -/
def onLatest (f : Approval → Approval) : List Approval → List Approval
  | [] => []
  | a :: as => f a :: as

/-- Thread `i` of `disconnct_inner` goes on. -/
def State.setThread (s : State) (i : Nat) (pc : DiscPc) : State :=
  { s with threads := s.threads.set i pc }

/-- The next step of thread `i` at `pc`; `ret` is what `dare_rdma_shutdown`
returns, if that is the step. -/
def State.threadStep (s : State) (i : Nat) (ret : Int) : DiscPc → Option State
  | .test =>
      some (s.setThread i (if s.flag = .noDisconnected then .setRequest else .done .notAsked))
  | .setRequest => some { s.setThread i .spin with flag := .disconnectedRequest }
  | .spin => some (s.setThread i (if s.flag = .disconnectedRequest then .spin else .testApprove))
  | .testApprove =>
      some (s.setThread i (if s.flag = .disconnectedApprove then .shutdown else .testNo))
  | .shutdown =>
      some { s.setThread i .running with
        approvals := onLatest (fun a => { a with started := a.started + 1 }) s.approvals
        unapproved := if s.approvals = [] then s.unapproved + 1 else s.unapproved }
  | .running =>
      some { s.setThread i (if ret = -1 then .done (.shutDown ret) else .clear ret) with
        approvals := onLatest (fun a => { a with finished := a.finished + 1 }) s.approvals }
  | .clear ret => some { s.setThread i (.done (.shutDown ret)) with flag := .noDisconnected }
  | .testNo =>
      some (s.setThread i (.done (if s.flag = .noDisconnected then .rejected else .neither)))
  | .done _ => none

/-- The next step of the replica thread. -/
def State.replicaStep (s : State) : State :=
  match s.replica with
  | .loop =>
      { s with replica := if s.flag = .disconnectedRequest then .count else .loop }
  | .count => { s with replica := if s.connections = 0 then .approve else .reject }
  | .approve =>
      { s with
        flag := .disconnectedApprove
        replica := .waiting
        approvals := ⟨s.connections, 0, 0, 0, []⟩ :: s.approvals }
  | .reject => { s with flag := .noDisconnected, replica := .loop }
  | .waiting => { s with replica := if s.restoreFlag then .relaunch else .waiting }
  | .relaunch =>
      { s with
        replica := .clear
        approvals := onLatest
          (fun a => { a with relaunches := a.relaunches ++ [(a.finished, a.arrived)] }) s.approvals }
  | .clear => { s with restoreFlag := false, replica := .loop }

/-- The steps of the process, and the commands it gets. -/
inductive Action where
  /-- a disconnect command -/
  | disconnect
  /-- thread `i` of `disconnct_inner` takes a step -/
  | thread (i : Nat) (ret : Int)
  /-- a reconnect command -/
  | reconnect
  /-- a reconnect thread sets the flag -/
  | arrive (k : Nat)
  | replica
  /-- the replica thread applies requests; `k` connections are open after them -/
  | serve (k : Nat)
  deriving Repr, DecidableEq

/-- One step. -/
def step (s : State) : Action → Option State
  | .disconnect => some { s with threads := s.threads ++ [.test] }
  | .thread i ret =>
      match s.threads[i]? with
      | some pc => s.threadStep i ret pc
      | none => none
  | .reconnect => some { s with pending := s.pending ++ [s.approvals.length] }
  | .arrive k =>
      match s.pending[k]? with
      | some issued =>
          some { s with
            restoreFlag := true
            pending := s.pending.eraseIdx k
            approvals :=
              if issued = s.approvals.length then
                onLatest (fun a => { a with arrived := a.arrived + 1 }) s.approvals
              else s.approvals }
      | none => none
  | .replica => some s.replicaStep
  | .serve k => if s.replica = .loop then some { s with connections := k } else none

/-- A step of a thread moves that thread, and it had not returned. -/
theorem threadStep_threads {s s' : State} {i : Nat} {ret : Int} {pc : DiscPc}
    (h : s.threadStep i ret pc = some s') :
    pc.isDone = false ∧ ∃ pc', s'.threads = s.threads.set i pc' := by
  cases pc with
  | done o => cases h
  | test | setRequest | spin | testApprove | shutdown | running | clear | testNo =>
      cases h
      exact ⟨rfl, _, rfl⟩

/-- The replica thread answers a request, and takes part in no thread of it. -/
theorem replicaStep_threads (s : State) : s.replicaStep.threads = s.threads := by
  unfold State.replicaStep
  cases s.replica <;> rfl

/-- Only disconnect commands and the threads themselves change the threads. -/
theorem step_threads {s s' : State} {a : Action} (h : step s a = some s')
    (ha : a = .replica ∨ (∃ k, a = .arrive k) ∨ ∃ k, a = .serve k) : s'.threads = s.threads := by
  rcases ha with rfl | ⟨k, rfl⟩ | ⟨k, rfl⟩
  · cases h
    exact replicaStep_threads s
  · simp only [step] at h
    split at h
    · cases h
      rfl
    · cases h
  · simp only [step] at h
    split at h
    · cases h
      rfl
    · cases h

/-- A thread that has returned does not move again. -/
theorem step_done {s s' : State} {a : Action} {t : Nat} {o : Outcome}
    (hd : s.threads[t]? = some (.done o)) (hs : step s a = some s') :
    s'.threads[t]? = some (.done o) := by
  cases a with
  | disconnect =>
      cases hs
      show (s.threads ++ [.test])[t]? = _
      rw [List.getElem?_append_left (List.getElem?_eq_some_iff.1 hd).1]
      exact hd
  | thread i ret =>
      simp only [step] at hs
      cases hi : s.threads[i]? with
      | none =>
          rw [hi] at hs
          cases hs
      | some pc =>
          rw [hi] at hs
          obtain ⟨hpc, pc', hth⟩ := threadStep_threads hs
          -- a thread that has returned takes no step
          have hne : i ≠ t := by
            rintro rfl
            rw [hd] at hi
            cases hi
            cases hpc
          rw [hth, List.getElem?_set_ne hne]
          exact hd
  | reconnect =>
      cases hs
      exact hd
  | arrive k => rw [step_threads hs (.inr (.inl ⟨k, rfl⟩))]; exact hd
  | replica => rw [step_threads hs (.inl rfl)]; exact hd
  | serve k => rw [step_threads hs (.inr (.inr ⟨k, rfl⟩))]; exact hd

/-! ## §3. What the handshake is for. -/

/-- Shutdowns follow approvals given without connections, one for each at most,
and RDMA is relaunched for an approval only after its shutdown has finished and
a reconnect command issued after it has arrived. -/
structure Safe (s : State) : Prop where
  approved : s.unapproved = 0
  empty : ∀ a ∈ s.approvals, a.connections = 0
  once : ∀ a ∈ s.approvals, a.started ≤ 1
  ordered : ∀ a ∈ s.approvals, ∀ r ∈ a.relaunches, 1 ≤ r.1 ∧ 1 ≤ r.2

/-- Commands that respect the handshake: no second disconnect before the first
has returned; a reconnect only when the replica thread waits for one, the
disconnect has returned and no other reconnect is on its way. -/
def Orderly (s : State) : Action → Prop
  | .disconnect => ∀ t ∈ s.threads, t.isDone = true
  | .reconnect =>
      s.replica = .waiting ∧ (∀ t ∈ s.threads, t.isDone = true) ∧ s.restoreFlag = false
        ∧ s.pending = []
  | _ => True

instance : ∀ (s : State) (a : Action), Decidable (Orderly s a)
  | s, .disconnect => inferInstanceAs (Decidable (∀ t ∈ s.threads, t.isDone = true))
  | s, .reconnect =>
      inferInstanceAs (Decidable (s.replica = .waiting ∧ (∀ t ∈ s.threads, t.isDone = true)
        ∧ s.restoreFlag = false ∧ s.pending = []))
  | _, .thread _ _ => inferInstanceAs (Decidable True)
  | _, .arrive _ => inferInstanceAs (Decidable True)
  | _, .replica => inferInstanceAs (Decidable True)
  | _, .serve _ => inferInstanceAs (Decidable True)

/-! ## §4. The invariant. -/

/-- Every approval has had its shutdown. -/
def Complete (as : List Approval) : Prop := ∀ a ∈ as, a.started = 1 ∧ a.finished = 1

/-- The replica thread waits and no reconnect command is there or on its way. -/
def State.Parked (s : State) : Prop :=
  s.replica = .waiting ∧ s.restoreFlag = false ∧ s.pending = []

/-- The latest approval has had `k` shutdowns started and none finished. -/
def Latest (k : Nat) (as : List Approval) : Prop :=
  ∃ a rest, as = a :: rest ∧ a.started = k ∧ a.finished = 0 ∧ Complete rest

/-- What is known while a thread of `disconnct_inner` is at `pc` and no other is
running. -/
def ThreadOk (s : State) : DiscPc → Prop
  | .test => Complete s.approvals
  | .setRequest => s.flag = .noDisconnected ∧ Complete s.approvals
  | .spin =>
      s.flag = .disconnectedApprove ∧ s.Parked ∧ Latest 0 s.approvals
      ∨ s.flag ≠ .disconnectedApprove ∧ Complete s.approvals
  | .testApprove =>
      s.flag = .disconnectedApprove ∧ s.Parked ∧ Latest 0 s.approvals
      ∨ s.flag = .noDisconnected ∧ Complete s.approvals
  | .shutdown => s.flag = .disconnectedApprove ∧ s.Parked ∧ Latest 0 s.approvals
  | .running => s.flag = .disconnectedApprove ∧ s.Parked ∧ Latest 1 s.approvals
  | .clear _ => s.flag = .disconnectedApprove ∧ s.Parked ∧ Complete s.approvals
  | .testNo => s.flag = .noDisconnected ∧ Complete s.approvals
  | .done _ => Complete s.approvals

/-- A reconnect command issued after the latest approval has arrived. -/
def State.Arrived (s : State) : Prop :=
  s.restoreFlag = true ∧ s.pending = [] ∧ Complete s.approvals
    ∧ ∃ a rest, s.approvals = a :: rest ∧ 1 ≤ a.arrived

/-- What is known of the flags where the replica thread is. -/
def LoopOk (s : State) : Prop :=
  match s.replica with
  | .loop => s.restoreFlag = false ∧ s.pending = []
  | .count => s.restoreFlag = false ∧ s.pending = [] ∧ s.flag = .disconnectedRequest
  | .approve =>
      s.restoreFlag = false ∧ s.pending = [] ∧ s.flag = .disconnectedRequest ∧ s.connections = 0
  | .reject => s.restoreFlag = false ∧ s.pending = [] ∧ s.flag = .disconnectedRequest
  | .waiting =>
      s.approvals ≠ [] ∧ (s.restoreFlag = false ∧ s.pending = []
        ∨ s.restoreFlag = false ∧ s.pending = [s.approvals.length] ∧ Complete s.approvals
        ∨ s.Arrived)
  | .relaunch => s.Arrived
  | .clear => s.restoreFlag = true ∧ s.pending = []

/-- What holds in every state: one thread at most runs, and the flag is that of its request.
-/
structure Inv (s : State) : Prop where
  safe : Safe s
  /-- only the last thread may still run -/
  threads : s.threads = [] ∧ ThreadOk s (.done .notAsked)
    ∨ ∃ olds pc, s.threads = olds ++ [pc] ∧ (∀ t ∈ olds, t.isDone = true) ∧ ThreadOk s pc
  /-- a request is somebody's -/
  request : s.flag = .disconnectedRequest → ∃ olds, s.threads = olds ++ [.spin]
  loop : LoopOk s

theorem Safe.initial (k : Nat) : Safe (initial k) where
  approved := rfl
  empty := by intro a ha; cases ha
  once := by intro a ha; cases ha
  ordered := by intro a ha; cases ha

theorem Inv.initial (k : Nat) : Inv (initial k) where
  safe := Safe.initial k
  threads := .inl ⟨rfl, by intro a ha; cases ha⟩
  request := by intro h; cases h
  loop := ⟨rfl, rfl⟩

/-! ## §5. Steps of the disconnect threads. -/

/-- Only the latest approval changes. -/
theorem mem_onLatest {f : Approval → Approval} {as : List Approval} {a : Approval}
    (h : a ∈ onLatest f as) : a ∈ as ∨ ∃ b ∈ as, a = f b := by
  cases as with
  | nil => cases h
  | cons b as =>
      rcases List.mem_cons.1 h with rfl | hmem
      · exact .inr ⟨b, List.mem_cons_self, rfl⟩
      · exact .inl (List.mem_cons_of_mem _ hmem)

/-- Safety reads the approvals only. -/
theorem Safe.congr {s s' : State} (h : Safe s) (has : s'.approvals = s.approvals)
    (hun : s'.unapproved = s.unapproved) : Safe s' where
  approved := hun.trans h.approved
  empty := has ▸ h.empty
  once := has ▸ h.once
  ordered := has ▸ h.ordered

/-- Counting finished shutdowns and arrived commands keeps safety. -/
theorem Safe.onLatest {s s' : State} {f : Approval → Approval} (h : Safe s)
    (has : s'.approvals = onLatest f s.approvals) (hun : s'.unapproved = s.unapproved)
    (hf : ∀ a, (f a).connections = a.connections ∧ (f a).started = a.started
      ∧ (f a).relaunches = a.relaunches) : Safe s' where
  approved := hun.trans h.approved
  empty := by
    intro a ha
    rcases mem_onLatest (has ▸ ha) with ha | ⟨b, hb, rfl⟩
    · exact h.empty a ha
    · rw [(hf b).1]
      exact h.empty b hb
  once := by
    intro a ha
    rcases mem_onLatest (has ▸ ha) with ha | ⟨b, hb, rfl⟩
    · exact h.once a ha
    · rw [(hf b).2.1]
      exact h.once b hb
  ordered := by
    intro a ha
    rcases mem_onLatest (has ▸ ha) with ha | ⟨b, hb, rfl⟩
    · exact h.ordered a ha
    · rw [(hf b).2.2]
      exact h.ordered b hb

/-- One more approval that has had its shutdown. -/
theorem Complete.cons {a : Approval} {as : List Approval} (h : a.started = 1 ∧ a.finished = 1)
    (has : Complete as) : Complete (a :: as) := by
  intro b hb
  rcases List.mem_cons.1 hb with rfl | hb
  · exact h
  · exact has b hb

/-- Something else is noted about the latest approval. -/
theorem Complete.onLatest {f : Approval → Approval} {as : List Approval}
    (hf : ∀ a, (f a).started = a.started ∧ (f a).finished = a.finished) (h : Complete as) :
    Complete (onLatest f as) := by
  intro a ha
  rcases mem_onLatest ha with ha | ⟨b, hb, rfl⟩
  · exact h a ha
  · rw [(hf b).1, (hf b).2]
    exact h b hb

/-- Where no request is open, the flag may take any value. -/
theorem LoopOk.setFlag {s : State} (h : LoopOk s) (hne : s.flag ≠ .disconnectedRequest) (f : Flag) :
    LoopOk { s with flag := f } := by
  unfold LoopOk at h ⊢
  cases hr : s.replica with
  | count =>
      rw [hr] at h
      exact absurd h.2.2 hne
  | approve =>
      rw [hr] at h
      exact absurd h.2.2.1 hne
  | reject =>
      rw [hr] at h
      exact absurd h.2.2 hne
  | loop | waiting | relaunch | clear =>
      simp only [hr] at h ⊢
      exact h

/-- A replica thread that waits for the restoration. -/
theorem LoopOk.parked {s : State} (h : s.Parked) (hne : s.approvals ≠ []) : LoopOk s := by
  obtain ⟨hr, hf, hp⟩ := h
  unfold LoopOk
  rw [hr]
  exact ⟨hne, .inl ⟨hf, hp⟩⟩

theorem ThreadOk.setThread {s : State} {i : Nat} {pc pc' : DiscPc} (h : ThreadOk s pc) :
    ThreadOk (s.setThread i pc') pc := by
  cases pc <;> exact h

/-- A running thread is the last one. -/
theorem Inv.last {s : State} (h : Inv s) {i : Nat} {pc : DiscPc} (hi : s.threads[i]? = some pc)
    (hpc : pc.isDone = false) :
    ∃ olds, s.threads = olds ++ [pc] ∧ (∀ t ∈ olds, t.isDone = true) ∧ ThreadOk s pc
      ∧ (∀ pc', (s.setThread i pc').threads = olds ++ [pc']) ∧ i = olds.length := by
  rcases h.threads with ⟨hnil, -⟩ | ⟨olds, last, heq, hdone, hok⟩
  · rw [hnil] at hi
    cases hi
  · rw [heq] at hi
    rcases get_concat hi with ⟨-, hold⟩ | ⟨rfl, rfl⟩
    · have := hdone pc (List.mem_of_getElem? hold)
      rw [hpc] at this
      cases this
    · refine ⟨olds, heq, hdone, hok, fun pc' => ?_, rfl⟩
      show s.threads.set olds.length pc' = _
      rw [heq, List.set_append_right _ _ (Nat.le_refl _), Nat.sub_self]
      rfl

/-- A step that only moves the thread. -/
theorem Inv.move {s : State} (h : Inv s) {i : Nat} {pc pc' : DiscPc}
    (hi : s.threads[i]? = some pc) (hpc : pc.isDone = false) (hok : ThreadOk s pc')
    (hreq : s.flag = .disconnectedRequest → pc' = .spin) : Inv (s.setThread i pc') := by
  obtain ⟨olds, -, hdone, -, hset, -⟩ := h.last hi hpc
  exact
    { safe := h.safe.congr rfl rfl
      threads := .inr ⟨olds, pc', hset pc', hdone, hok.setThread⟩
      request := fun hf => ⟨olds, hreq hf ▸ hset pc'⟩
      loop := h.loop }

/-- A step that also writes the flag, while nobody asks. -/
theorem Inv.moveFlag {s : State} (h : Inv s) {i : Nat} {pc pc' : DiscPc} {f : Flag}
    (hi : s.threads[i]? = some pc) (hpc : pc.isDone = false) (hne : s.flag ≠ .disconnectedRequest)
    (hok : ThreadOk { s.setThread i pc' with flag := f } pc')
    (hreq : f = .disconnectedRequest → pc' = .spin) :
    Inv { s.setThread i pc' with flag := f } := by
  obtain ⟨olds, -, hdone, -, hset, -⟩ := h.last hi hpc
  exact
    { safe := h.safe.congr rfl rfl
      threads := .inr ⟨olds, pc', hset pc', hdone, hok⟩
      request := fun hf => ⟨olds, hreq hf ▸ hset pc'⟩
      loop := LoopOk.setFlag (s := s.setThread i pc') h.loop hne f }

/-- The shutdown starts. -/
theorem Inv.startShutdown {s : State} (h : Inv s) {i : Nat}
    (hi : s.threads[i]? = some .shutdown) :
    Inv { s.setThread i .running with
      approvals := onLatest (fun a => { a with started := a.started + 1 }) s.approvals
      unapproved := if s.approvals = [] then s.unapproved + 1 else s.unapproved } := by
  -- the thread is the latest one, and its approval has not been used
  obtain ⟨olds, -, hdone, ⟨hflag, hpark, a, rest, has, hstart, hfin, hrest⟩, hset, -⟩ := h.last hi rfl
  have hmem : ∀ b ∈ rest, b ∈ s.approvals := fun b hb => has ▸ List.mem_cons_of_mem _ hb
  have ha : a ∈ s.approvals := has ▸ List.mem_cons_self
  refine
    { safe := ?_
      threads := .inr ⟨olds, .running, hset _, hdone, hflag, hpark, ?_⟩
      request := ?_
      loop := LoopOk.parked hpark ?_ }
  · refine ⟨?_, ?_, ?_, ?_⟩
    · show (if s.approvals = [] then _ else s.unapproved) = 0
      rw [if_neg (by rw [has]; exact List.cons_ne_nil _ _)]
      exact h.safe.approved
    · intro b hb
      rcases mem_onLatest hb with hb | ⟨c, hc, rfl⟩
      · exact h.safe.empty b hb
      · exact h.safe.empty c hc
    · intro b hb
      simp only [has, onLatest] at hb
      rcases List.mem_cons.1 hb with rfl | hb
      · show a.started + 1 ≤ 1
        omega
      · exact h.safe.once b (hmem b hb)
    · intro b hb
      rcases mem_onLatest hb with hb | ⟨c, hc, rfl⟩
      · exact h.safe.ordered b hb
      · exact h.safe.ordered c hc
  · simp only [has, onLatest]
    exact ⟨_, rest, rfl, by show a.started + 1 = 1; omega, hfin, hrest⟩
  · intro hf
    exact absurd (hflag.symm.trans hf) (by decide)
  · simp only [has, onLatest]
    exact List.cons_ne_nil _ _

/-- The shutdown returns. -/
theorem Inv.endShutdown {s : State} (h : Inv s) {i : Nat} (ret : Int)
    (hi : s.threads[i]? = some .running) :
    Inv { s.setThread i (if ret = -1 then .done (.shutDown ret) else .clear ret) with
      approvals := onLatest (fun a => { a with finished := a.finished + 1 }) s.approvals } := by
  obtain ⟨olds, -, hdone, ⟨hflag, hpark, a, rest, has, hstart, hfin, hrest⟩, hset, -⟩ := h.last hi rfl
  have hcomplete : Complete (onLatest (fun a => { a with finished := a.finished + 1 }) s.approvals) := by
    rw [has]
    exact .cons ⟨hstart, by show a.finished + 1 = 1; omega⟩ hrest
  refine
    { safe := h.safe.onLatest rfl rfl fun _ => ⟨rfl, rfl, rfl⟩
      threads := .inr ⟨olds, _, hset _, hdone, ?_⟩
      request := ?_
      loop := LoopOk.parked hpark ?_ }
  · by_cases hret : ret = -1
    · rw [if_pos hret]
      exact hcomplete
    · rw [if_neg hret]
      exact ⟨hflag, hpark, hcomplete⟩
  · intro hf
    exact absurd (hflag.symm.trans hf) (by decide)
  · simp only [has, onLatest]
    exact List.cons_ne_nil _ _

/-- A thread of `disconnct_inner` goes on. -/
theorem Inv.thread {s s' : State} (h : Inv s) {i : Nat} {pc : DiscPc} {ret : Int}
    (hi : s.threads[i]? = some pc) (hs : s.threadStep i ret pc = some s') : Inv s' := by
  cases pc with
  | test =>
      obtain ⟨olds, heq, -, hok, -⟩ := h.last hi rfl
      -- only the latest thread can have a request outstanding, and this one is testing
      have hnoreq : s.flag ≠ .disconnectedRequest := by
        intro hf
        obtain ⟨olds', heq'⟩ := h.request hf
        have := List.append_inj_right' (heq.symm.trans heq') rfl
        cases this
      cases hs
      refine h.move hi rfl ?_ fun hf => absurd hf hnoreq
      by_cases hf : s.flag = .noDisconnected
      · rw [if_pos hf]
        exact ⟨hf, hok⟩
      · rw [if_neg hf]
        exact hok
  | setRequest =>
      obtain ⟨olds, heq, -, ⟨hflag, hok⟩, -⟩ := h.last hi rfl
      cases hs
      refine h.moveFlag hi rfl (by rw [hflag]; decide) (.inr ⟨?_, hok⟩) fun _ => rfl
      show Flag.disconnectedRequest ≠ .disconnectedApprove
      decide
  | spin =>
      obtain ⟨olds, heq, -, hok, -⟩ := h.last hi rfl
      cases hs
      by_cases hf : s.flag = .disconnectedRequest
      · rw [if_pos hf]
        exact h.move hi rfl hok fun _ => rfl
      · rw [if_neg hf]
        refine h.move hi rfl ?_ fun hf' => absurd hf' hf
        rcases hok with hok | ⟨hne, hok⟩
        · exact .inl hok
        · refine .inr ⟨?_, hok⟩
          -- the replica thread has answered
          cases hflag : s.flag with
          | noDisconnected => rfl
          | disconnectedRequest => exact absurd hflag hf
          | disconnectedApprove => exact absurd hflag hne
  | testApprove =>
      obtain ⟨olds, heq, -, hok, -⟩ := h.last hi rfl
      cases hs
      rcases hok with ⟨hflag, hpark, hlatest⟩ | ⟨hflag, hok⟩
      · rw [if_pos hflag]
        exact h.move hi rfl ⟨hflag, hpark, hlatest⟩ fun hf => absurd (hflag.symm.trans hf) (by decide)
      · rw [if_neg (by rw [hflag]; decide)]
        exact h.move hi rfl ⟨hflag, hok⟩ fun hf => absurd (hflag.symm.trans hf) (by decide)
  | shutdown =>
      cases hs
      exact h.startShutdown hi
  | running =>
      cases hs
      exact h.endShutdown ret hi
  | clear r =>
      obtain ⟨olds, heq, -, ⟨hflag, hpark, hok⟩, -⟩ := h.last hi rfl
      cases hs
      exact h.moveFlag hi rfl (by rw [hflag]; decide) hok fun hf => absurd hf (by decide)
  | testNo =>
      obtain ⟨olds, heq, -, ⟨hflag, hok⟩, -⟩ := h.last hi rfl
      cases hs
      exact h.move hi rfl hok fun hf => absurd (hflag.symm.trans hf) (by decide)
  | done o => cases hs

/-! ## §6. Steps of the replica thread, and commands. -/

/-- An open request is that of the last thread, and all approvals have had their shutdown. -/
theorem Inv.current {s : State} (h : Inv s) (hf : s.flag = .disconnectedRequest) :
    ∃ olds, s.threads = olds ++ [.spin] ∧ (∀ t ∈ olds, t.isDone = true) ∧ Complete s.approvals := by
  obtain ⟨olds, heq⟩ := h.request hf
  rcases h.threads with ⟨hnil, -⟩ | ⟨olds', pc, heq', hdone, hok⟩
  · rw [heq] at hnil
    exact absurd hnil (by simp)
  · obtain ⟨rfl, hpc⟩ := List.append_inj' (heq.symm.trans heq') rfl
    cases hpc
    refine ⟨olds, heq, hdone, ?_⟩
    rcases hok with ⟨hf', -⟩ | ⟨-, hok⟩
    · rw [hf] at hf'
      cases hf'
    · exact hok

/-- The other threads see the flag only. -/
theorem ThreadOk.keep {s s' : State} {pc : DiscPc} (h : ThreadOk s pc) (hpark : ¬ s.Parked)
    (hflag : s'.flag = s.flag) (has : Complete s.approvals → Complete s'.approvals) :
    ThreadOk s' pc := by
  cases pc with
  | test => exact has h
  | setRequest => exact ⟨hflag.trans h.1, has h.2⟩
  | spin =>
      rcases h with ⟨-, hp, -⟩ | ⟨hne, hc⟩
      · exact absurd hp hpark
      · exact .inr ⟨hflag ▸ hne, has hc⟩
  | testApprove =>
      rcases h with ⟨-, hp, -⟩ | ⟨hno, hc⟩
      · exact absurd hp hpark
      · exact .inr ⟨hflag.trans hno, has hc⟩
  | shutdown => exact absurd h.2.1 hpark
  | running => exact absurd h.2.1 hpark
  | clear ret => exact absurd h.2.1 hpark
  | testNo => exact ⟨hflag.trans h.1, has h.2⟩
  | done o => exact has h

/-- A step of others while the replica thread is not parked. -/
theorem Inv.keep {s s' : State} (h : Inv s) (hpark : ¬ s.Parked) (hthreads : s'.threads = s.threads)
    (hflag : s'.flag = s.flag) (has : Complete s.approvals → Complete s'.approvals)
    (hsafe : Safe s') (hloop : LoopOk s') : Inv s' where
  safe := hsafe
  threads := by
    rw [hthreads]
    rcases h.threads with ⟨hnil, hok⟩ | ⟨olds, pc, heq, hdone, hok⟩
    · exact .inl ⟨hnil, hok.keep hpark hflag has⟩
    · exact .inr ⟨olds, pc, heq, hdone, hok.keep hpark hflag has⟩
  request := by
    rw [hthreads, hflag]
    exact h.request
  loop := hloop

/-- The replica thread answers a request; the thread that asked sees it. -/
theorem Inv.answer {s s' : State} (h : Inv s) (hf : s.flag = .disconnectedRequest)
    (hthreads : s'.threads = s.threads) (hflag : s'.flag ≠ .disconnectedRequest)
    (hok : Complete s.approvals → ThreadOk s' .spin) (hsafe : Safe s') (hloop : LoopOk s') : Inv s' := by
  obtain ⟨olds, heq, hdone, hc⟩ := h.current hf
  exact
    { safe := hsafe
      threads := .inr ⟨olds, .spin, hthreads.trans heq, hdone, hok hc⟩
      request := fun h' => absurd h' hflag
      loop := hloop }

theorem not_parked {s : State} {pc : LoopPc} (hr : s.replica = pc) (hne : pc ≠ .waiting) :
    ¬ s.Parked := fun hp => hne (hr.symm.trans hp.1)

/-- The replica is launched again: the snapshot taken now is of a finished shutdown and an
arrived command. -/
theorem safe_relaunch {s : State} (h : Safe s) (harrived : s.Arrived) :
    Safe { s with
      replica := .clear
      approvals := onLatest
        (fun a => { a with relaunches := a.relaunches ++ [(a.finished, a.arrived)] })
        s.approvals } := by
  obtain ⟨-, -, hc, a, rest, has, harr⟩ := harrived
  refine ⟨h.1, ?_, ?_, ?_⟩
  · intro b hb
    rcases mem_onLatest hb with hb | ⟨c, hc, rfl⟩
    · exact h.2 b hb
    · exact h.2 c hc
  · intro b hb
    rcases mem_onLatest hb with hb | ⟨c, hc, rfl⟩
    · exact h.3 b hb
    · exact h.3 c hc
  · have ha : a ∈ s.approvals := has ▸ List.mem_cons_self
    simp only [has, onLatest]
    refine List.forall_mem_cons.2 ⟨?_, ?_⟩
    · intro r hr
      rcases List.mem_append.1 hr with hr | hr
      · exact h.4 a ha r hr
      · cases List.mem_singleton.1 hr
        exact ⟨Nat.le_of_eq (hc a ha).2.symm, harr⟩
    · intro b hb
      exact h.4 b (has ▸ List.mem_cons_of_mem _ hb)

/-- The replica thread takes a step. -/
theorem Inv.replica {s : State} (h : Inv s) : Inv s.replicaStep := by
  have hloop := h.loop
  have hsafe := h.safe
  unfold State.replicaStep
  unfold LoopOk at hloop
  cases hr : s.replica with
  | loop =>
      rw [hr] at hloop
      have hpark : ¬ s.Parked := not_parked hr (fun h => by cases h)
      by_cases hf : s.flag = .disconnectedRequest
      · simp only [if_pos hf]
        exact h.keep hpark rfl rfl id (hsafe.congr rfl rfl) ⟨hloop.1, hloop.2, hf⟩
      · simp only [if_neg hf]
        exact h.keep hpark rfl rfl id (hsafe.congr rfl rfl) hloop
  | count =>
      rw [hr] at hloop
      have hpark : ¬ s.Parked := not_parked hr (fun h => by cases h)
      by_cases hc : s.connections = 0
      · simp only [if_pos hc]
        exact h.keep hpark rfl rfl id (hsafe.congr rfl rfl)
          ⟨hloop.1, hloop.2.1, hloop.2.2, hc⟩
      · simp only [if_neg hc]
        exact h.keep hpark rfl rfl id (hsafe.congr rfl rfl) hloop
  | approve =>
      rw [hr] at hloop
      obtain ⟨hrest, hpend, hf, hconn⟩ := hloop
      refine h.answer hf rfl (fun h => by cases h)
        (fun hc => .inl ⟨rfl, ⟨rfl, hrest, hpend⟩, _, _, rfl, rfl, rfl, hc⟩)
        ⟨hsafe.1, ?_, ?_, ?_⟩ ⟨List.cons_ne_nil _ _, .inl ⟨hrest, hpend⟩⟩
      · exact List.forall_mem_cons.2 ⟨hconn, hsafe.2⟩
      · exact List.forall_mem_cons.2 ⟨Nat.zero_le 1, hsafe.3⟩
      · exact List.forall_mem_cons.2 ⟨fun r hr => (List.not_mem_nil hr).elim, hsafe.4⟩
  | reject =>
      rw [hr] at hloop
      obtain ⟨hrest, hpend, hf⟩ := hloop
      refine h.answer hf rfl (fun h => by cases h) (fun hc => .inr ⟨?_, hc⟩)
        (hsafe.congr rfl rfl) ⟨hrest, hpend⟩
      show Flag.noDisconnected ≠ .disconnectedApprove
      decide
  | waiting =>
      rw [hr] at hloop
      by_cases hflag : s.restoreFlag = true
      · have hpark : ¬ s.Parked := fun hp => by rw [hp.2.1] at hflag; cases hflag
        simp only [if_pos hflag]
        refine h.keep hpark rfl rfl id (hsafe.congr rfl rfl) ?_
        rcases hloop.2 with ⟨hf, -⟩ | ⟨hf, -⟩ | harr
        · rw [hf] at hflag; cases hflag
        · rw [hf] at hflag; cases hflag
        · exact harr
      · simp only [if_neg hflag]
        rw [← hr]
        exact h
  | relaunch =>
      rw [hr] at hloop
      have hpark : ¬ s.Parked := not_parked hr (fun h => by cases h)
      exact h.keep hpark rfl rfl (Complete.onLatest fun _ => ⟨rfl, rfl⟩) (safe_relaunch hsafe hloop)
        ⟨hloop.1, hloop.2.1⟩
  | clear =>
      rw [hr] at hloop
      have hpark : ¬ s.Parked := not_parked hr (fun h => by cases h)
      exact h.keep hpark rfl rfl id (hsafe.congr rfl rfl) ⟨rfl, hloop.2⟩

/-- Once all threads have returned, every approval has had its shutdown. -/
theorem Inv.complete {s : State} (h : Inv s) (hdone : ∀ t ∈ s.threads, t.isDone = true) :
    Complete s.approvals := by
  rcases h.threads with ⟨-, hok⟩ | ⟨olds, pc, heq, -, hok⟩
  · exact hok
  · have hpc := hdone pc (by rw [heq]; exact List.mem_append_right _ List.mem_cons_self)
    cases pc with
    | done o => exact hok
    | test | setRequest | spin | testApprove | shutdown | running | clear | testNo => cases hpc

/-- A disconnect command, when all earlier threads have returned. -/
theorem Inv.disconnect {s : State} (h : Inv s) (hdone : ∀ t ∈ s.threads, t.isDone = true) :
    Inv { s with threads := s.threads ++ [.test] } where
  safe := h.safe.congr rfl rfl
  threads := .inr ⟨s.threads, .test, rfl, hdone, h.complete hdone⟩
  request := by
    intro hf
    obtain ⟨olds, heq⟩ := h.request hf
    have := hdone .spin (by rw [heq]; exact List.mem_append_right _ List.mem_cons_self)
    cases this
  loop := h.loop

/-- A reconnect command, while the replica thread waits for it. -/
theorem Inv.reconnect {s : State} (h : Inv s) (hr : s.replica = .waiting)
    (hdone : ∀ t ∈ s.threads, t.isDone = true) (hflag : s.restoreFlag = false)
    (hpend : s.pending = []) :
    Inv { s with pending := s.pending ++ [s.approvals.length] } where
  safe := h.safe.congr rfl rfl
  threads := by
    rcases h.threads with ⟨hnil, hok⟩ | ⟨olds, pc, heq, hold, hok⟩
    · exact .inl ⟨hnil, hok⟩
    · have hpc := hdone pc (by rw [heq]; exact List.mem_append_right _ List.mem_cons_self)
      refine .inr ⟨olds, pc, heq, hold, ?_⟩
      cases pc with
      | done o => exact hok
      | test | setRequest | spin | testApprove | shutdown | running | clear | testNo => cases hpc
  request := h.request
  loop := by
    have hloop := h.loop
    unfold LoopOk at hloop ⊢
    simp only [hr, hpend] at hloop ⊢
    exact ⟨hloop.1, .inr (.inl ⟨hflag, rfl, h.complete hdone⟩)⟩

/-- The flag of a reconnect command is set. -/
theorem Inv.arrive {s s' : State} (h : Inv s) {k : Nat} (hs : step s (.arrive k) = some s') : Inv s' := by
  have hloop := h.loop
  have hsafe := h.safe
  simp only [step] at hs
  cases hk : s.pending[k]? with
  | none =>
      rw [hk] at hs
      cases hs
  | some issued =>
      rw [hk] at hs
      cases hs
      have hne : s.pending ≠ [] := by
        intro hnil
        rw [hnil] at hk
        cases hk
      -- a command is on its way only while the replica thread waits for it
      unfold LoopOk at hloop
      cases hr : s.replica with
      | loop => rw [hr] at hloop; exact absurd hloop.2 hne
      | count => rw [hr] at hloop; exact absurd hloop.2.1 hne
      | approve => rw [hr] at hloop; exact absurd hloop.2.1 hne
      | reject => rw [hr] at hloop; exact absurd hloop.2.1 hne
      | relaunch => rw [hr] at hloop; exact absurd hloop.2.1 hne
      | clear => rw [hr] at hloop; exact absurd hloop.2 hne
      | waiting =>
          rw [hr] at hloop
          rcases hloop.2 with ⟨-, hnil⟩ | ⟨hflag, hpend, hc⟩ | ⟨-, hnil, -⟩
          · exact absurd hnil hne
          · rw [hpend] at hk
            obtain ⟨hlt, hissued⟩ := List.getElem?_eq_some_iff.1 hk
            have h0 : k = 0 := by simpa using hlt
            subst h0
            cases hissued
            have hpark : ¬ s.Parked := fun hp => hne hp.2.2
            obtain ⟨a, rest, has⟩ := List.exists_cons_of_ne_nil hloop.1
            refine h.keep hpark rfl rfl ?_ (hsafe.onLatest (if_pos rfl) rfl fun _ => ⟨rfl, rfl, rfl⟩) ?_
            · intro hc
              simp only [List.getElem_cons_zero, if_true]
              exact hc.onLatest fun _ => ⟨rfl, rfl⟩
            · unfold LoopOk
              simp only [hpend, has, onLatest, List.getElem_cons_zero, if_true, List.eraseIdx_cons_zero]
              refine ⟨List.cons_ne_nil _ _, .inr (.inr ⟨rfl, rfl, ?_, _, _, rfl, Nat.le_add_left 1 _⟩)⟩
              have hc' : Complete (a :: rest) := has ▸ hc
              exact .cons (hc' a List.mem_cons_self) fun b hb => hc' b (List.mem_cons_of_mem _ hb)
          · exact absurd hnil hne

/-- **The step lemma.** -/
theorem Inv.preserved {s s' : State} {a : Action} (h : Inv s) (hok : Orderly s a)
    (hs : step s a = some s') : Inv s' := by
  cases a with
  | disconnect =>
      cases hs
      exact h.disconnect hok
  | thread i ret =>
      simp only [step] at hs
      cases hi : s.threads[i]? with
      | none =>
          rw [hi] at hs
          cases hs
      | some pc =>
          rw [hi] at hs
          exact h.thread hi hs
  | reconnect =>
      obtain ⟨hr, hdone, hflag, hpend⟩ := hok
      cases hs
      exact h.reconnect hr hdone hflag hpend
  | arrive k => exact h.arrive hs
  | replica =>
      cases hs
      exact h.replica
  | serve k =>
      simp only [step] at hs
      by_cases hr : s.replica = .loop
      · rw [if_pos hr] at hs
        cases hs
        -- connections are served in the loop, not while it is parked
        have hpark : ¬ s.Parked := not_parked hr (fun h => by cases h)
        refine h.keep hpark rfl rfl id (h.safe.congr rfl rfl) ?_
        have hloop := h.loop
        unfold LoopOk at hloop ⊢
        simp only [hr] at hloop ⊢
        exact hloop
      · rw [if_neg hr] at hs
        cases hs

/-- **The run lemma.** -/
theorem reaches_inv {k : Nat} {s : State} (h : Reaches step Orderly (initial k) s) : Inv s :=
  h.invariant (Inv.initial k) fun _ _ _ hI hok hs => hI.preserved hok hs

/-! ## §7. The handshake. -/

/-- **With orderly commands the handshake is safe in every state of every
run.** -/
theorem safe_of_orderly {k : Nat} {s : State} (h : Reaches step Orderly (initial k) s) : Safe s :=
  (reaches_inv h).safe

/-- One disconnect and one reconnect, answered. -/
def fullCycle : List Action :=
  [.disconnect, .thread 0 0, .thread 0 0, .replica, .replica, .replica, .thread 0 0, .thread 0 0,
    .thread 0 0, .thread 0 0, .thread 0 0, .reconnect, .arrive 0, .replica, .replica, .replica]

/-- A whole cycle: disconnect, approval, reconnect. -/
theorem safe_fullCycle :
    ∃ s, s.approvals = [⟨0, 1, 1, 1, [(1, 1)]⟩] ∧ s.replica = .loop ∧ s.flag = .noDisconnected
      ∧ Safe s := by
  obtain ⟨s, hs, hv⟩ := exists_reaches_of_execOk step Orderly (initial 0) fullCycle
    (fun s => (s.approvals, s.replica, s.flag))
    (v := ([⟨0, 1, 1, 1, [(1, 1)]⟩], .loop, .noDisconnected)) (by decide)
  simp only [Prod.mk.injEq] at hv
  exact ⟨s, hv.1, hv.2.1, hv.2.2, safe_of_orderly hs⟩

/-- Two disconnect commands pass the test together. -/
def twoDisconnects : List Action :=
  [.disconnect, .disconnect, .thread 0 0, .thread 1 0, .thread 0 0, .thread 1 0,
    .replica, .replica, .replica,
    .thread 0 0, .thread 0 0, .thread 0 0, .thread 1 0, .thread 1 0, .thread 1 0]

/-- Both shut RDMA down after the one approval. -/
theorem safe_fails :
    ¬ ∀ k s, Reaches step (fun _ _ => True) (initial k) s → Safe s := by
  intro hall
  obtain ⟨s, hs, hv⟩ := exists_reaches_of_execOk step (fun _ _ => True) (initial 0) twoDisconnects
    State.approvals (v := [⟨0, 2, 0, 0, []⟩]) (by decide)
  have := (hall 0 s hs).once ⟨0, 2, 0, 0, []⟩ (by rw [hv]; exact List.mem_cons_self)
  exact absurd this (by decide)

end RdmaPaxos.Checkpoint
