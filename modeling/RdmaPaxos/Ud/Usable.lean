/-
  RdmaPaxos.Ud.Usable
  ───────────────────
  **IS A CONNECTED ENDPOINT USABLE?**

  `handle_rc_syn` and `handle_rc_synack` store the peer's parameters, set
  `rc_connected` and then call `rc_connect_server`, which moves the queue pair in
  three steps, each of which may fail.  The membership thread runs the handlers;
  every thread that submits a request reads `rc_connected` in two loops over the
  group, without a lock in the second one, and posts to the endpoints it finds set:

      membership thread                submitting threads
      test, store ──▶ flag             count 0 ‥ n-1     (send_flags)
        ──▶ reset to init              test i ──▶ post i   (i = 0 ‥ n-1)
        ──▶ init to rtr ──▶ rtr to rts

  §1  the two kinds of threads;
  §2  what a step can do;
  §3  the flag and what it stands for;
  §4  runs without failures in which no submission meets a handler;
  §5  the theorem.
-/
import RdmaPaxos.Ud.Event

namespace RdmaPaxos.Ud

open RdmaPaxos.Run

/-! ## §1. The threads. -/

/-- The calls of `ibv_modify_qp` in `rc_connect_server`. -/
inductive Transition where
  | resetToInit
  | initToRtr
  | rtrToRts
  deriving Repr, DecidableEq

/-- The transition after this one. -/
def Transition.next : Transition → Option Transition
  | .resetToInit => some .initToRtr
  | .initToRtr => some .rtrToRts
  | .rtrToRts => none

/-- Where the membership thread is. -/
inductive MemberPc where
  /-- between two handlers -/
  | idle
  /-- the endpoint was not connected; its parameters are stored next -/
  | store (msg : RcSyn) (qpn : Nat)
  /-- `ep->rc_connected = 1` is next -/
  | flag (i : Nat)
  /-- in `rc_connect_server` -/
  | modify (i : Nat) (t : Transition)

/-- No handler is at work. -/
def MemberPc.isIdle : MemberPc → Bool
  | .idle => true
  | _ => false

/-- Where a call of `leader_handle_submit_req` is; `counted` are the endpoints whose
`send_flags` it has set. -/
inductive SubmitPc where
  /-- in the first loop -/
  | count (i : Nat) (counted : List Nat)
  /-- in the second loop, before the test of endpoint `i` -/
  | test (i : Nat) (counted : List Nat)
  /-- `rc_connected` was set; `post_send` is next -/
  | post (i : Nat) (counted : List Nat)
  | done

/-- A write posted: to which endpoint, whether `rc_connect_server` had completed for
it, and whether the first loop had set its flags. -/
structure Post where
  idx : Nat
  established : Bool
  counted : Bool
  deriving Repr, DecidableEq

/-- A node.  `established i`: `rc_connect_server` has completed since the parameters of
endpoint `i` were last stored; `broken i`: its last call failed, and no DESTROY has
come since. -/
structure Linking where
  server : Server
  established : Nat → Bool
  broken : Nat → Bool
  pc : MemberPc
  calls : List SubmitPc
  posts : List Post

/-- Nothing is connected yet. -/
def Linking.initial (server : Server) : Linking where
  server := { server with ep := fun _ => ⟨false, 0, 0, 0⟩ }
  established := fun _ => false
  broken := fun _ => false
  pc := .idle
  calls := []
  posts := []

/-- What can happen to the endpoints of a server. -/
inductive LinkEvent where
  /-- an RC_SYN or RC_SYNACK arrives -/
  | syn (msg : RcSyn)
  | synack (msg : RcSyn)
  /-- a DESTROY arrives -/
  | destroy (i : Nat)
  /-- the handler goes on; `ok` is the result of `ibv_modify_qp`, if it is called -/
  | handler (ok : Bool)
  /-- a request is submitted -/
  | submit
  /-- submission `id` goes on -/
  | call (id : Nat)

/-- Endpoint `i` becomes `e`. -/
def Linking.setEp (s : Linking) (i : Nat) (e : Ep) : Linking :=
  { s with server := { s.server with ep := Function.update s.server.ep i e } }

/-- The test at the beginning of both handlers. -/
def Linking.begin (s : Linking) (msg : RcSyn) (qpn : Nat) : Option Linking :=
  if s.pc.isIdle = true ∧ msg.idx < s.server.len then
    some (if (s.server.ep msg.idx).connected then s else { s with pc := .store msg qpn })
  else none

/-- The rest of them. -/
def Linking.handlerStep (s : Linking) (ok : Bool) : Option Linking :=
  match s.pc with
  | .idle => none
  | .store msg qpn =>
      let e := s.server.ep msg.idx
      some { s.setEp msg.idx ⟨e.connected, msg.raddr, msg.rkey, qpn⟩ with
        established := Function.update s.established msg.idx false
        pc := .flag msg.idx }
  | .flag i =>
      some { s.setEp i { s.server.ep i with connected := true } with pc := .modify i .resetToInit }
  | .modify i t =>
      if ok then
        match t.next with
        | some t' => some { s with pc := .modify i t' }
        | none => some { s with established := Function.update s.established i true, pc := .idle }
      else some { s with broken := Function.update s.broken i true, pc := .idle }

/-- One step of a submission, and the endpoint it posts to. -/
def Linking.callStep (s : Linking) : SubmitPc → Option (SubmitPc × List Post)
  | .count i counted =>
      if i < s.server.size then
        if i = s.server.idx ∨ (s.server.ep i).connected = false then some (.count (i + 1) counted, [])
        else some (.count (i + 1) (counted ++ [i]), [])
      else some (.test 0 counted, [])
  | .test i counted =>
      if i < s.server.size then
        if i = s.server.idx ∨ (s.server.ep i).connected = false then some (.test (i + 1) counted, [])
        else some (.post i counted, [])
      else some (.done, [])
  | .post i counted => some (.test (i + 1) counted, [⟨i, s.established i, decide (i ∈ counted)⟩])
  | .done => none

/-- One event. -/
def Linking.step (s : Linking) : LinkEvent → Option Linking
  | .syn msg => s.begin msg (msg.qpns s.server.idx)
  | .synack msg => s.begin msg (msg.qpns 0)
  | .destroy i =>
      if s.pc.isIdle = true ∧ i < s.server.len then
        some { s with
          server := s.server.destroyRequest i
          broken := Function.update s.broken i false }
      else none
  | .handler ok => s.handlerStep ok
  | .submit => some { s with calls := s.calls ++ [.count 0 []] }
  | .call id =>
      (s.calls[id]?).bind fun c => (s.callStep c).map fun r =>
        { s with calls := s.calls.set id r.1, posts := s.posts ++ r.2 }

/-! ## §2. What a step can do. -/

/-- The events as a relation. -/
inductive LinkStep (s : Linking) : LinkEvent → Linking → Prop where
  /-- a connected endpoint is left alone -/
  | left {e : LinkEvent} : LinkStep s e s
  | begin {e : LinkEvent} {msg : RcSyn} {qpn : Nat} (hpc : s.pc = .idle)
      (hdown : (s.server.ep msg.idx).connected = false) : LinkStep s e { s with pc := .store msg qpn }
  | store {ok : Bool} {msg : RcSyn} {qpn : Nat} (hpc : s.pc = .store msg qpn) :
      LinkStep s (.handler ok)
        { s.setEp msg.idx ⟨(s.server.ep msg.idx).connected, msg.raddr, msg.rkey, qpn⟩ with
          established := Function.update s.established msg.idx false
          pc := .flag msg.idx }
  | flag {ok : Bool} {i : Nat} (hpc : s.pc = .flag i) :
      LinkStep s (.handler ok)
        { s.setEp i { s.server.ep i with connected := true } with pc := .modify i .resetToInit }
  | moved {i : Nat} {t t' : Transition} (hpc : s.pc = .modify i t) :
      LinkStep s (.handler true) { s with pc := .modify i t' }
  | finished {i : Nat} {t : Transition} (hpc : s.pc = .modify i t) :
      LinkStep s (.handler true)
        { s with established := Function.update s.established i true, pc := .idle }
  | failed {i : Nat} {t : Transition} (hpc : s.pc = .modify i t) :
      LinkStep s (.handler false) { s with broken := Function.update s.broken i true, pc := .idle }
  | destroy {i : Nat} (hpc : s.pc = .idle) :
      LinkStep s (.destroy i)
        { s with server := s.server.destroyRequest i, broken := Function.update s.broken i false }
  | submit : LinkStep s .submit { s with calls := s.calls ++ [.count 0 []] }
  /-- a submission tests endpoints and counts them -/
  | tested {id : Nat} {c' : SubmitPc}
      (hpost : ∀ i counted, c' = .post i counted → (s.server.ep i).connected = true) :
      LinkStep s (.call id) { s with calls := s.calls.set id c' }
  | posted {id i : Nat} {counted : List Nat} (hc : s.calls[id]? = some (.post i counted)) :
      LinkStep s (.call id) { s with
        calls := s.calls.set id (.test (i + 1) counted)
        posts := s.posts ++ [⟨i, s.established i, decide (i ∈ counted)⟩] }

theorem MemberPc.eq_idle {pc : MemberPc} (h : pc.isIdle = true) : pc = .idle := by
  cases pc with
  | idle => rfl
  | _ => cases h

section Cases
variable {s s' : Linking}

theorem linkStep_begin {e : LinkEvent} {msg : RcSyn} {qpn : Nat} (h : s.begin msg qpn = some s') :
    LinkStep s e s' := by
  unfold Linking.begin at h
  split at h
  next hguard =>
    cases h
    split
    · exact .left
    next hdown => exact .begin (MemberPc.eq_idle hguard.1) (by simpa using hdown)
  next => cases h

theorem linkStep_handler {ok : Bool} (h : s.handlerStep ok = some s') :
    LinkStep s (.handler ok) s' := by
  unfold Linking.handlerStep at h
  split at h
  next => cases h
  next msg qpn hpc =>
    cases h
    exact .store hpc
  next i hpc =>
    cases h
    exact .flag hpc
  next i t hpc =>
    cases ok with
    | true =>
        simp only [if_true] at h
        split at h
        · cases h
          exact .moved hpc
        · cases h
          exact .finished hpc
    | false =>
        cases h
        exact .failed hpc

theorem linkStep_call {id : Nat} (h : s.step (.call id) = some s') : LinkStep s (.call id) s' := by
  obtain ⟨c, hc, hstep⟩ := Option.bind_eq_some_iff.mp h
  obtain ⟨⟨c', posts⟩, hcall, rfl⟩ := Option.map_eq_some_iff.mp hstep
  have htested : (posts = [] ∧ ∀ i counted, c' = .post i counted → (s.server.ep i).connected = true) →
      LinkStep s (.call id) { s with calls := s.calls.set id c', posts := s.posts ++ posts } := by
    rintro ⟨rfl, hpost⟩
    have hsame : s.posts ++ [] = s.posts := List.append_nil _
    rw [hsame]
    exact .tested hpost
  cases c with
  | count i counted =>
      refine htested ?_
      simp only [Linking.callStep] at hcall
      split at hcall
      · split at hcall <;> cases hcall <;> exact ⟨rfl, fun _ _ heq => by cases heq⟩
      · cases hcall
        exact ⟨rfl, fun _ _ heq => by cases heq⟩
  | test i counted =>
      refine htested ?_
      simp only [Linking.callStep] at hcall
      split at hcall
      · split at hcall
        · cases hcall
          exact ⟨rfl, fun _ _ heq => by cases heq⟩
        next hup =>
          cases hcall
          refine ⟨rfl, fun j counted' heq => ?_⟩
          cases heq
          exact Bool.eq_true_of_not_eq_false fun hdown => hup (.inr hdown)
      · cases hcall
        exact ⟨rfl, fun _ _ heq => by cases heq⟩
  | post i counted =>
      cases hcall
      exact .posted hc
  | done => cases hcall

theorem linkStep_cases {e : LinkEvent} (h : s.step e = some s') : LinkStep s e s' := by
  cases e with
  | syn msg => exact linkStep_begin h
  | synack msg => exact linkStep_begin h
  | destroy i =>
      simp only [Linking.step] at h
      split at h
      next hguard =>
        cases h
        exact .destroy (MemberPc.eq_idle hguard.1)
      next => cases h
  | handler ok => exact linkStep_handler h
  | submit =>
      cases h
      exact .submit
  | call id => exact linkStep_call h

end Cases

/-! ## §3. The flag. -/

/-- What holds between two steps of the membership thread. -/
def MemberPc.Ok (s : Linking) : MemberPc → Prop
  | .idle => True
  | .store msg _ => (s.server.ep msg.idx).connected = false
  | .flag i => (s.server.ep i).connected = false ∧ s.established i = false
  | .modify i _ => (s.server.ep i).connected = true ∧ s.established i = false

/-- An endpoint whose flag is set is established, about to be, or broken. -/
structure LinkOk (s : Linking) : Prop where
  pc : s.pc.Ok s
  flag : ∀ i, (s.server.ep i).connected = true →
    s.established i = true ∨ (∃ t, s.pc = .modify i t) ∨ s.broken i = true
  broken : ∀ i, s.broken i = true →
    (s.server.ep i).connected = true ∧ s.established i = false ∧ ∀ t, s.pc ≠ .modify i t

theorem LinkOk.initial (server : Server) : LinkOk (Linking.initial server) :=
  ⟨trivial, fun _ h => (by cases h), fun _ h => (by cases h)⟩

theorem setEp_connected (s : Linking) (i : Nat) (e : Ep) (j : Nat) :
    ((s.setEp i e).server.ep j).connected
      = if j = i then e.connected else (s.server.ep j).connected := by
  show (Function.update s.server.ep i e j).connected = _
  rw [Function.update_apply]
  split <;> rfl

theorem destroyRequest_connected (s : Server) (i j : Nat) :
    ((s.destroyRequest i).ep j).connected = if j = i then false else (s.ep j).connected := by
  show (Function.update s.ep i _ j).connected = _
  rw [Function.update_apply]
  split <;> rfl

section Kept
variable {s s' : Linking} {e : LinkEvent}

/-- The parameters are stored: the flag is not set, and stays so. -/
theorem LinkOk.store {msg : RcSyn} {qpn : Nat} (h : LinkOk s) (hpc : s.pc = .store msg qpn) :
    LinkOk { s.setEp msg.idx ⟨(s.server.ep msg.idx).connected, msg.raddr, msg.rkey, qpn⟩ with
      established := Function.update s.established msg.idx false
      pc := .flag msg.idx } := by
  have hdown : (s.server.ep msg.idx).connected = false := by
    have hok := h.pc
    rw [hpc] at hok
    exact hok
  have hconn : ∀ j, ((s.setEp msg.idx ⟨(s.server.ep msg.idx).connected, msg.raddr, msg.rkey,
      qpn⟩).server.ep j).connected = (s.server.ep j).connected := by
    intro j
    rw [setEp_connected]
    split
    next hj => rw [hj]
    next => rfl
  have hne : ∀ j, (s.server.ep j).connected = true → j ≠ msg.idx := by
    rintro j hj rfl
    rw [hdown] at hj
    cases hj
  refine ⟨⟨(hconn _).trans hdown, Function.update_self ..⟩, fun j hj => ?_, fun j hj => ?_⟩
  · have hj' : (s.server.ep j).connected = true := (hconn j).symm.trans hj
    rcases h.flag j hj' with hest | ⟨t, ht⟩ | hbroken
    · exact .inl ((Function.update_of_ne (hne j hj') ..).trans hest)
    · rw [hpc] at ht
      cases ht
    · exact .inr (.inr hbroken)
  · obtain ⟨hj', hest, -⟩ := h.broken j hj
    exact ⟨(hconn j).trans hj', (Function.update_of_ne (hne j hj') ..).trans hest,
      fun t ht => by cases ht⟩

/-- The flag is set. -/
theorem LinkOk.setFlag {i : Nat} (h : LinkOk s) (hpc : s.pc = .flag i) :
    LinkOk { s.setEp i { s.server.ep i with connected := true } with
      pc := .modify i .resetToInit } := by
  have hok : (s.server.ep i).connected = false ∧ s.established i = false := by
    have hok := h.pc
    rw [hpc] at hok
    exact hok
  have hconn := setEp_connected s i { s.server.ep i with connected := true }
  refine ⟨⟨(hconn i).trans (if_pos rfl), hok.2⟩, fun j hj => ?_, fun j hj => ?_⟩
  · by_cases hji : j = i
    · exact .inr (.inl ⟨.resetToInit, by rw [hji]⟩)
    · have hj' : (s.server.ep j).connected = true := by
        rw [hconn j, if_neg hji] at hj
        exact hj
      rcases h.flag j hj' with hest | ⟨t, ht⟩ | hbroken
      · exact .inl hest
      · rw [hpc] at ht
        cases ht
      · exact .inr (.inr hbroken)
  · obtain ⟨hj', hest, -⟩ := h.broken j hj
    have hji : j ≠ i := by
      rintro rfl
      rw [hok.1] at hj'
      cases hj'
    refine ⟨((hconn j).trans (if_neg hji)).trans hj', hest, fun t ht => ?_⟩
    cases ht
    exact hji rfl

/-- `rc_connect_server` returns, one way or the other. -/
theorem LinkOk.returns {i : Nat} {t : Transition} (h : LinkOk s) (hpc : s.pc = .modify i t)
    (ok : Bool) :
    LinkOk { s with
      established := if ok then Function.update s.established i true else s.established
      broken := if ok then s.broken else Function.update s.broken i true
      pc := .idle } := by
  have hok : (s.server.ep i).connected = true ∧ s.established i = false := by
    have hok := h.pc
    rw [hpc] at hok
    exact hok
  have hother : ∀ j, j ≠ i → ∀ t, s.pc ≠ .modify j t := by
    intro j hj t ht
    rw [hpc] at ht
    cases ht
    exact hj rfl
  -- a handler never gets here for an endpoint that is broken: its flag is set
  have hnotBroken : s.broken i ≠ true := fun hb => (h.broken i hb).2.2 t hpc
  cases ok with
  | true =>
      refine ⟨trivial, fun j hj => ?_, fun j hj => ?_⟩
      · by_cases hji : j = i
        · subst hji
          exact .inl (Function.update_self ..)
        · rcases h.flag j hj with hest | ⟨t', ht⟩ | hbroken
          · exact .inl ((Function.update_of_ne hji ..).trans hest)
          · exact absurd ht (hother j hji t')
          · exact .inr (.inr hbroken)
      · have hji : j ≠ i := by
          rintro rfl
          exact hnotBroken hj
        obtain ⟨hj', hest, -⟩ := h.broken j hj
        exact ⟨hj', (Function.update_of_ne hji ..).trans hest, fun t ht => by cases ht⟩
  | false =>
      refine ⟨trivial, fun j hj => ?_, fun j hj => ?_⟩
      · by_cases hji : j = i
        · subst hji
          exact .inr (.inr (Function.update_self ..))
        · rcases h.flag j hj with hest | ⟨t', ht⟩ | hbroken
          · exact .inl hest
          · exact absurd ht (hother j hji t')
          · exact .inr (.inr ((Function.update_of_ne hji ..).trans hbroken))
      · by_cases hji : j = i
        · subst hji
          exact ⟨hok.1, hok.2, fun t ht => by cases ht⟩
        · have hb : s.broken j = true := (Function.update_of_ne hji ..).symm.trans hj
          obtain ⟨hj', hest, -⟩ := h.broken j hb
          exact ⟨hj', hest, fun t ht => by cases ht⟩

theorem LinkOk.destroy {i : Nat} (h : LinkOk s) (hpc : s.pc = .idle) :
    LinkOk { s with
      server := s.server.destroyRequest i
      broken := Function.update s.broken i false } := by
  have hconn := destroyRequest_connected s.server i
  refine ⟨by dsimp only; rw [hpc]; trivial, fun j hj => ?_, fun j hj => ?_⟩
  · have hj' : ((s.server.destroyRequest i).ep j).connected = true := hj
    rw [hconn j] at hj'
    split at hj'
    · cases hj'
    next hji =>
      rcases h.flag j hj' with hest | ht | hbroken
      · exact .inl hest
      · exact .inr (.inl ht)
      · exact .inr (.inr ((Function.update_of_ne hji ..).trans hbroken))
  · have hji : j ≠ i := by
      rintro rfl
      have hself : Function.update s.broken j false j = true := hj
      rw [Function.update_self] at hself
      cases hself
    have hb : s.broken j = true := (Function.update_of_ne hji ..).symm.trans hj
    obtain ⟨hj', hest, hne⟩ := h.broken j hb
    exact ⟨((hconn j).trans (if_neg hji)).trans hj', hest, hne⟩

theorem LinkOk.preserved (h : LinkOk s) (hstep : LinkStep s e s') : LinkOk s' := by
  cases hstep with
  | left => exact h
  | begin hpc hdown =>
      refine ⟨hdown, fun j hj => ?_, fun j hj => ?_⟩
      · rcases h.flag j hj with hest | ⟨t, ht⟩ | hbroken
        · exact .inl hest
        · rw [hpc] at ht
          cases ht
        · exact .inr (.inr hbroken)
      · obtain ⟨hj', hest, -⟩ := h.broken j hj
        exact ⟨hj', hest, fun t ht => by cases ht⟩
  | store hpc => exact h.store hpc
  | flag hpc => exact h.setFlag hpc
  | @moved i t t' hpc =>
      have hok := h.pc
      rw [hpc] at hok
      refine ⟨hok, fun j hj => ?_, fun j hj => ?_⟩
      · rcases h.flag j hj with hest | ⟨t₀, ht⟩ | hbroken
        · exact .inl hest
        · rw [hpc] at ht
          cases ht
          exact .inr (.inl ⟨t', rfl⟩)
        · exact .inr (.inr hbroken)
      · obtain ⟨hj', hest, hne⟩ := h.broken j hj
        refine ⟨hj', hest, fun t₀ ht => ?_⟩
        cases ht
        exact hne t hpc
  | finished hpc => exact h.returns hpc true
  | failed hpc => exact h.returns hpc false
  | destroy hpc => exact h.destroy hpc
  | submit | tested | posted => exact ⟨h.pc, h.flag, h.broken⟩

end Kept

/-- A handler that is not disturbed and does not fail does what `Server.establish` says. -/
theorem handler_establish (s : Linking) {msg : RcSyn} (qpn : Nat) (hpc : s.pc = .idle)
    (hlen : msg.idx < s.server.len) (hdown : (s.server.ep msg.idx).connected = false) :
    (s.begin msg qpn).bind (fun s => execOk Linking.step (fun _ _ => True) s
      (List.replicate 5 (.handler true)))
      = some { s with
          server := s.server.establish msg qpn
          established := Function.update s.established msg.idx true } := by
  have hbegin : s.begin msg qpn = some { s with pc := .store msg qpn } := by
    unfold Linking.begin
    rw [hpc, hdown, if_pos ⟨rfl, hlen⟩]
    rfl
  rw [hbegin]
  simp only [Option.bind_some, List.replicate, execOk, Linking.step, Linking.handlerStep,
    Linking.setEp, Transition.next, Server.establish, hdown, if_true, Function.update_self,
    Function.update_idem, Bool.false_eq_true, if_false]
  rw [← hpc]

/-! ## §4. Calm runs. -/

/-- No transition fails, and no submission takes a step inside a handler. -/
def Calm (s : Linking) : LinkEvent → Prop
  | .handler ok => ok = true
  | .call _ => s.pc.isIdle = true
  | _ => True

instance (s : Linking) : (e : LinkEvent) → Decidable (Calm s e)
  | .handler ok => inferInstanceAs (Decidable (ok = true))
  | .call _ => inferInstanceAs (Decidable (s.pc.isIdle = true))
  | .syn _ | .synack _ | .destroy _ | .submit => .isTrue trivial

/-- The handler has begun to replace what endpoint `i` is connected to. -/
def MemberPc.replaces (i : Nat) : MemberPc → Prop
  | .flag j | .modify j _ => j = i
  | _ => False

/-- What holds while transitions succeed and no call goes on inside a handler. -/
structure CalmOk (s : Linking) : Prop where
  link : LinkOk s
  sound : ∀ i, s.broken i = false
  calls : ∀ i counted, .post i counted ∈ s.calls → s.established i = true ∨ s.pc.replaces i
  posts : ∀ p ∈ s.posts, p.established = true

theorem CalmOk.initial (server : Server) : CalmOk (Linking.initial server) :=
  ⟨.initial server, fun _ => rfl, fun _ _ h => (by cases h), fun _ h => (by cases h)⟩

/-- Outside a replacement of its endpoint, a call that is past the test posts to an
established one. -/
theorem CalmOk.established {s : Linking} (h : CalmOk s) {i : Nat} {counted : List Nat}
    (hc : .post i counted ∈ s.calls) (hpc : ¬ s.pc.replaces i) : s.established i = true :=
  (h.calls i counted hc).resolve_right hpc

theorem CalmOk.preserved {s s' : Linking} {e : LinkEvent} (h : CalmOk s) (hcalm : Calm s e)
    (hstep : LinkStep s e s') : CalmOk s' := by
  have hlink := h.link.preserved hstep
  cases hstep with
  | left => exact h
  | begin hpc _ =>
      refine ⟨hlink, h.sound, fun i counted hc => .inl (h.established hc ?_), h.posts⟩
      rw [hpc]
      exact id
  | @store _ msg qpn hpc =>
      refine ⟨hlink, h.sound, fun i counted hc => ?_, h.posts⟩
      by_cases hi : i = msg.idx
      · exact .inr hi.symm
      · refine .inl ((Function.update_of_ne hi ..).trans (h.established hc ?_))
        rw [hpc]
        exact id
  | flag hpc | moved hpc =>
      refine ⟨hlink, h.sound, fun i counted hc => ?_, h.posts⟩
      rcases h.calls i counted hc with hest | hrep
      · exact .inl hest
      · rw [hpc] at hrep
        exact .inr hrep
  | @finished j t hpc =>
      -- the only replacement under way is the one that ends
      refine ⟨hlink, h.sound, fun i counted hc => .inl ?_, h.posts⟩
      by_cases hi : i = j
      · subst hi
        exact Function.update_self ..
      · refine (Function.update_of_ne hi ..).trans (h.established hc ?_)
        rw [hpc]
        exact fun hrep => hi hrep.symm
  | failed => cases hcalm
  | @destroy j hpc =>
      refine ⟨hlink, fun i => ?_, h.calls, h.posts⟩
      by_cases hi : i = j
      · subst hi
        exact Function.update_self ..
      · exact (Function.update_of_ne hi ..).trans (h.sound i)
  | submit =>
      refine ⟨hlink, h.sound, fun i counted hc => ?_, h.posts⟩
      rcases List.mem_append.mp hc with hold | hnew
      · exact h.calls i counted hold
      · cases List.mem_singleton.mp hnew
  | @tested id c' hpost =>
      refine ⟨hlink, h.sound, fun i counted hc => ?_, h.posts⟩
      rcases List.mem_or_eq_of_mem_set hc with hold | hnew
      · exact h.calls i counted hold
      · -- the flag was set while no handler was running
        have hidle := MemberPc.eq_idle hcalm
        rcases h.link.flag i (hpost i counted hnew.symm) with hest | ⟨t, ht⟩ | hbroken
        · exact .inl hest
        · rw [hidle] at ht
          cases ht
        · rw [h.sound i] at hbroken
          cases hbroken
  | @posted id i counted hc =>
      have hidle := MemberPc.eq_idle hcalm
      refine ⟨hlink, h.sound, fun j counted' hj => ?_, fun p hp => ?_⟩
      · rcases List.mem_or_eq_of_mem_set hj with hold | hnew
        · exact h.calls j counted' hold
        · cases hnew
      · rcases List.mem_append.mp hp with hold | hnew
        · exact h.posts p hold
        · obtain rfl := List.mem_singleton.mp hnew
          refine h.established (List.mem_of_getElem? hc) ?_
          rw [hidle]
          exact fun hrep => hrep

/-! ## §5. The theorem. -/

/-- **Connected and usable.**  Whatever messages arrive, whatever transitions fail and
however submissions are interleaved: every endpoint whose flag is set is established
exactly if no handler is inside `rc_connect_server` and no endpoint is left from a call
that failed; such an endpoint is not tried again.  If no transition fails and
submissions stay out of the handlers, every write goes to an established endpoint. -/
theorem connected_usable_iff (server : Server) :
    (∀ s, Reaches Linking.step (fun _ _ => True) (.initial server) s →
      ((∀ i, (s.server.ep i).connected = true → s.established i = true)
        ↔ (∀ i t, s.pc ≠ .modify i t) ∧ ∀ i, s.broken i = false)
      ∧ ∀ msg s', s.broken msg.idx = true →
        s.step (.syn msg) = some s' ∨ s.step (.synack msg) = some s' → s' = s)
    ∧ ∀ s, Reaches Linking.step Calm (.initial server) s →
      (∀ i, s.broken i = false) ∧ ∀ p ∈ s.posts, p.established = true := by
  refine ⟨fun s h => ?_, fun s h => ?_⟩
  · have hok : LinkOk s := h.invariant (.initial server)
      fun _ _ _ hs _ hstep => hs.preserved (linkStep_cases hstep)
    refine ⟨⟨fun hall => ⟨fun i t hpc => ?_, fun i => ?_⟩, fun ⟨hpc, hsound⟩ i hi => ?_⟩, ?_⟩
    · have hmid := hok.pc
      rw [hpc] at hmid
      obtain ⟨hup, hest⟩ := hmid
      rw [hall i hup] at hest
      cases hest
    · refine Bool.eq_false_of_not_eq_true fun hbroken => ?_
      obtain ⟨hi, hest, -⟩ := hok.broken i hbroken
      rw [hall i hi] at hest
      cases hest
    · rcases hok.flag i hi with hest | ⟨t, ht⟩ | hbroken
      · exact hest
      · exact absurd ht (hpc i t)
      · rw [hsound i] at hbroken
        cases hbroken
    · -- the handler finds the flag set and leaves the endpoint as it is
      intro msg s' hbroken hstep
      have hup := (hok.broken msg.idx hbroken).1
      have hleft : ∀ qpn, s.begin msg qpn = some s' → s' = s := by
        intro qpn hbegin
        unfold Linking.begin at hbegin
        rw [hup] at hbegin
        split at hbegin
        · exact (Option.some.inj hbegin).symm
        · cases hbegin
      rcases hstep with hsyn | hsynack
      · exact hleft _ hsyn
      · exact hleft _ hsynack
  · have hok : CalmOk s := h.invariant (.initial server)
      fun _ _ _ hs hcalm hstep => hs.preserved hcalm (linkStep_cases hstep)
    exact ⟨hok.sound, hok.posts⟩

/-- The leader of two servers, and the RC_SYN of server 1. -/
def leaderOfTwo : Server := ⟨0, 0, 2, 7, 0, 0, fun _ => 0, fun _ => ⟨false, 0, 0, 0⟩⟩
/-- The message of node 1. -/
def synOfOne : RcSyn := ⟨4096, 1, 1, fun _ => 17⟩

/-- A handshake that succeeds, and a submission after it. -/
theorem connected_usable_iff_handshake :
    ∃ s, Reaches Linking.step Calm (.initial leaderOfTwo) s ∧ s.posts.length = 1
      ∧ ∀ p ∈ s.posts, p.established = true := by
  obtain ⟨s, hs, hlen⟩ := exists_reaches_of_execOk Linking.step Calm (.initial leaderOfTwo)
    (.syn synOfOne :: List.replicate 5 (.handler true) ++ .submit :: List.replicate 6 (.call 0))
    (fun s => s.posts.length) (v := 1) (by decide +kernel)
  exact ⟨s, hs, hlen, ((connected_usable_iff leaderOfTwo).2 s hs).2⟩

/-- A transition fails: the endpoint stays connected.  A submission after the flag and
before the first transition posts to it, and one that has passed its first loop before
does so with flags it has not set. -/
theorem connected_not_usable :
    (∃ s, Reaches Linking.step (fun _ _ => True) (.initial leaderOfTwo) s
      ∧ (s.server.ep 1).connected = true ∧ s.established 1 = false ∧ s.pc.isIdle = true)
    ∧ ∀ counted : Bool, ∃ s, Reaches Linking.step (fun _ _ => True) (.initial leaderOfTwo) s
      ∧ s.posts = [⟨1, false, counted⟩] := by
  refine ⟨?_, fun counted => ?_⟩
  · obtain ⟨s, hs, hv⟩ := exists_reaches_of_execOk Linking.step (fun _ _ => True)
      (.initial leaderOfTwo) [.syn synOfOne, .handler true, .handler true, .handler true, .handler false]
      (fun s => ((s.server.ep 1).connected, s.established 1, s.pc.isIdle))
      (v := (true, false, true)) (by decide +kernel)
    obtain ⟨hup, hrest⟩ := Prod.mk.inj hv
    obtain ⟨hest, hidle⟩ := Prod.mk.inj hrest
    exact ⟨s, hs, hup, hest, hidle⟩
  · cases counted with
    | true =>
        exact exists_reaches_of_execOk Linking.step (fun _ _ => True) (.initial leaderOfTwo)
          ([.syn synOfOne, .handler true, .handler true, .submit] ++ List.replicate 6 (.call 0))
          Linking.posts (by decide +kernel)
    | false =>
        exact exists_reaches_of_execOk Linking.step (fun _ _ => True) (.initial leaderOfTwo)
          ([.submit, .call 0, .call 0, .call 0, .syn synOfOne, .handler true, .handler true]
            ++ List.replicate 3 (.call 0))
          Linking.posts (by decide +kernel)

end RdmaPaxos.Ud
