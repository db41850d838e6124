/-
  RdmaPaxos.Ud.Event
  ──────────────────
  **THE MEMBERSHIP MESSAGES OF ONE NODE** (`event` and its handlers in
  `rdma/dare_ibv_ud.c`).

  A message is a datagram in a zeroed buffer; its first four bytes choose a case
  of a `switch`, and no case ends in a `break`.  Each handler reads the buffer
  with its own layout:

                      reconf_rep_t, rc_destroy_t     rc_syn_t
      offset  0 ‥  3  type                           type
             16 ‥ 19  idx                            log_rm.raddr (to 23)
             24 ‥ 27                                 log_rm.rkey
             32 ‥ 35                                 idx
             54 ‥                                    queue pair numbers

  `ownEffect_iff` : over any sequence of messages, every message has the effect
  of its own type and no other exactly if each is one of those whose case is the
  last one or is left early: a DESTROY, a JOIN at a node that does not lead, or
  a message of the node's own.
-/
import RdmaPaxos.Lib.ByteMemory
import RdmaPaxos.Lib.Run
import Mathlib.Logic.Function.Basic

namespace RdmaPaxos.Ud

open RdmaPaxos.ByteMemory RdmaPaxos.Run

/-! ## §1. A node's endpoints and handlers. -/

/-- The part of `dare_ib_ep_t` the messages set. -/
structure Ep where
  /-- `rc_connected` -/
  connected : Bool
  raddr : Nat
  rkey : Nat
  qpn : Nat
  deriving Repr, DecidableEq

/-- What the handlers read and write. -/
structure Server where
  /-- `*config.idx` -/
  idx : Nat
  /-- `cur_view->leader_id` -/
  leaderId : Nat
  /-- `config.cid.size` -/
  size : Nat
  /-- `config.len`: the number of endpoints allocated -/
  len : Nat
  /-- address and key of the node's own log region -/
  raddr : Nat
  rkey : Nat
  /-- the numbers of its own queue pairs, one for each server -/
  qpNum : Nat → Nat
  ep : Nat → Ep

/-- The fields of an `rc_syn_t`. -/
structure RcSyn where
  raddr : Nat
  rkey : Nat
  idx : Nat
  qpns : Nat → Nat

/-- The message types the UD handler tells apart. -/
inductive MsgType where
  | join | rcSyn | rcSynack | cfgReply | destroy
  deriving Repr, DecidableEq

/-- A message sent. -/
inductive Sent where
  | cfgReply (idx : Nat)
  | rcSynack (raddr rkey idx qpn : Nat)
  | rcSyn (raddr rkey idx : Nat) (qpns : List Nat)
  deriving Repr, DecidableEq

/-- `is_leader`. -/
def Server.isLeader (s : Server) : Bool := s.leaderId == s.idx

/-- `handle_server_join_request`. -/
def Server.joinRequest (s : Server) : Sent := .cfgReply s.idx

/-- The part that `handle_rc_syn` and `handle_rc_synack` share: a connected
endpoint is left alone. -/
def Server.establish (s : Server) (msg : RcSyn) (qpn : Nat) : Server :=
  if (s.ep msg.idx).connected then s
  else { s with ep := Function.update s.ep msg.idx ⟨true, msg.raddr, msg.rkey, qpn⟩ }

/-- `handle_rc_syn`: the node and the reply. -/
def Server.rcSyn (s : Server) (msg : RcSyn) : Server × Sent :=
  (s.establish msg (msg.qpns s.idx), .rcSynack s.raddr s.rkey s.idx (s.qpNum msg.idx))

/-- `handle_rc_synack`. -/
def Server.rcSynack (s : Server) (msg : RcSyn) : Server := s.establish msg (msg.qpns 0)

/-- `handle_server_join_reply`. -/
def Server.joinReply (s : Server) (idx : Nat) : Server := { s with leaderId := idx }

/-- `ud_exchange_rc_info`: the message it multicasts. -/
def Server.exchangeRcInfo (s : Server) : Sent :=
  .rcSyn s.raddr s.rkey s.idx ((List.range s.size).map s.qpNum)

/-- `handle_server_destroy_request`. -/
def Server.destroyRequest (s : Server) (idx : Nat) : Server :=
  { s with ep := Function.update s.ep idx { s.ep idx with connected := false } }

/-! ## §2. The `switch`. -/

/-- A datagram as it lies in the buffer, and whether it comes from the node's
own address. -/
structure Datagram where
  buf : Mem
  own : Bool

/-- The type in the header, if it is one of them. -/
def Datagram.type (d : Datagram) : Option MsgType :=
  match readLE d.buf 0 4 with
  | 211 => some .join
  | 1 => some .rcSyn
  | 2 => some .rcSynack
  | 214 => some .cfgReply
  | 213 => some .destroy
  | _ => none

/-- `idx` as `reconf_rep_t` and `rc_destroy_t` have it. -/
def Datagram.repIdx (d : Datagram) : Nat := readLE d.buf 16 4

/-- The buffer as an `rc_syn_t`. -/
def Datagram.syn (d : Datagram) : RcSyn where
  raddr := readLE d.buf 16 8
  rkey := readLE d.buf 24 4
  idx := readLE d.buf 32 4
  qpns := fun j => readLE d.buf (54 + 4 * j) 4

/-- What handling one datagram has done besides changing the node: the handlers
run, the replies to the sender, the multicasts. -/
structure Effects where
  handlers : List MsgType
  replies : List Sent
  casts : List Sent
  deriving Repr, DecidableEq

/-- From `case DESTROY` on. -/
def caseDestroy (s : Server) (d : Datagram) (e : Effects) : Option (Server × Effects) :=
  if d.repIdx < s.len then
    some (s.destroyRequest d.repIdx, { e with handlers := e.handlers ++ [.destroy] })
  else none

/-- From `case CFG_REPLY` on. -/
def caseCfgReply (s : Server) (d : Datagram) (e : Effects) : Option (Server × Effects) :=
  let s := s.joinReply d.repIdx
  caseDestroy s d
    { e with handlers := e.handlers ++ [.cfgReply], casts := e.casts ++ [s.exchangeRcInfo] }

/-- From `case RC_SYNACK` on. -/
def caseRcSynack (s : Server) (d : Datagram) (e : Effects) : Option (Server × Effects) :=
  if d.syn.idx < s.len then
    caseCfgReply (s.rcSynack d.syn) d { e with handlers := e.handlers ++ [.rcSynack] }
  else none

/-- From `case RC_SYN` on. -/
def caseRcSyn (s : Server) (d : Datagram) (e : Effects) : Option (Server × Effects) :=
  if d.syn.idx < s.len then
    caseRcSynack (s.rcSyn d.syn).1 d
      { e with handlers := e.handlers ++ [.rcSyn], replies := e.replies ++ [(s.rcSyn d.syn).2] }
  else none

/-- From `case JOIN` on; `continue` leaves the switch. -/
def caseJoin (s : Server) (d : Datagram) (e : Effects) : Option (Server × Effects) :=
  if s.isLeader then
    caseRcSyn s d
      { e with handlers := e.handlers ++ [.join], replies := e.replies ++ [s.joinRequest] }
  else some (s, e)

/-- One round of the loop in `event`; `none` where it goes past the table of
endpoints. -/
def event (s : Server) (d : Datagram) : Option (Server × Effects) :=
  if d.own then some (s, ⟨[], [], []⟩)
  else
    match d.type with
    | some .join => caseJoin s d ⟨[], [], []⟩
    | some .rcSyn => caseRcSyn s d ⟨[], [], []⟩
    | some .rcSynack => caseRcSynack s d ⟨[], [], []⟩
    | some .cfgReply => caseCfgReply s d ⟨[], [], []⟩
    | some .destroy => caseDestroy s d ⟨[], [], []⟩
    | none => some (s, ⟨[], [], []⟩)

/-! ## §3. The effect of a message's own type. -/

/-- A message of one of the five types whose index names a server of the table. -/
def Datagram.WellFormed (len : Nat) (d : Datagram) : Prop :=
  match d.type with
  | some .join => True
  | some .rcSyn => d.syn.idx < len
  | some .rcSynack => d.syn.idx < len
  | some .cfgReply => d.repIdx < len
  | some .destroy => d.repIdx < len
  | none => False

/-- A well-formed message at nodes with `len` endpoints. -/
abbrev Message (len : Nat) := { d : Datagram // d.WellFormed len }

/-- Handling `d` in `s` is defined and has exactly the effect of the type of `d`. -/
structure OwnEffect (s : Server) (d : Datagram) (s' : Server) (e : Effects) : Prop where
  leader : s'.leaderId = if d.own = false ∧ d.type = some .cfgReply then d.repIdx else s.leaderId
  down : ∀ i, (s.ep i).connected = true → (s'.ep i).connected = false →
    d.type = some .destroy ∧ d.repIdx = i
  up : ∀ i, (s.ep i).connected = false → (s'.ep i).connected = true →
    (d.type = some .rcSyn ∨ d.type = some .rcSynack) ∧ d.syn.idx = i
  replies : e.replies.length
    = if d.own = false ∧ (d.type = some .join ∧ s.isLeader = true ∨ d.type = some .rcSyn) then 1 else 0
  handlers : ∀ h ∈ e.handlers, d.type = some h

/-- The datagram is handled, and does what its type stands for. -/
def HasOwnEffect (s : Server) (d : Datagram) : Prop :=
  ∃ s' e, event s d = some (s', e) ∧ OwnEffect s d s' e

/-- The messages whose case does not fall through into another. -/
def NoFallThrough (s : Server) (d : Datagram) : Prop :=
  d.own = true ∨ d.type = some .destroy ∨ (d.type = some .join ∧ s.isLeader = false)

/-! ## §4. Which handlers run. -/

/-- The last case runs one handler. -/
theorem caseDestroy_handlers {s s' : Server} {d : Datagram} {e e' : Effects}
    (h : caseDestroy s d e = some (s', e')) : e'.handlers = e.handlers ++ [.destroy] := by
  unfold caseDestroy at h
  split at h
  · cases h
    rfl
  · cases h

/-- Whatever runs from `case CFG_REPLY` on ends with the handler of DESTROY. -/
theorem caseCfgReply_handlers {s s' : Server} {d : Datagram} {e e' : Effects}
    (h : caseCfgReply s d e = some (s', e')) :
    MsgType.cfgReply ∈ e'.handlers ∧ MsgType.destroy ∈ e'.handlers := by
  have := caseDestroy_handlers h
  rw [this]
  simp

/-- The case of `RC_SYNACK` falls through the two behind it. -/
theorem caseRcSynack_handlers {s s' : Server} {d : Datagram} {e e' : Effects}
    (h : caseRcSynack s d e = some (s', e')) :
    MsgType.cfgReply ∈ e'.handlers ∧ MsgType.destroy ∈ e'.handlers := by
  unfold caseRcSynack at h
  split at h
  · exact caseCfgReply_handlers h
  · cases h

/-- So does that of `RC_SYN`. -/
theorem caseRcSyn_handlers {s s' : Server} {d : Datagram} {e e' : Effects}
    (h : caseRcSyn s d e = some (s', e')) :
    MsgType.cfgReply ∈ e'.handlers ∧ MsgType.destroy ∈ e'.handlers := by
  unfold caseRcSyn at h
  split at h
  · exact caseRcSynack_handlers h
  · cases h

/-- A message that falls through runs two handlers that cannot both be its own. -/
theorem not_ownEffect_of_both {s s' : Server} {d : Datagram} {e : Effects}
    (h : MsgType.cfgReply ∈ e.handlers ∧ MsgType.destroy ∈ e.handlers) : ¬ OwnEffect s d s' e := by
  intro hown
  have h₁ := hown.handlers _ h.1
  have h₂ := hown.handlers _ h.2
  rw [h₁] at h₂
  cases h₂

/-! ## §5. One message. -/

/-- A server's own packet is ignored, as it should be. -/
theorem hasOwnEffect_own {s : Server} {d : Datagram} (h : d.own = true) : HasOwnEffect s d := by
  refine ⟨s, ⟨[], [], []⟩, by unfold event; rw [if_pos h], ?_⟩
  exact
    { leader := by rw [if_neg (by rw [h]; simp)]
      down := fun i h₁ h₂ => by rw [h₁] at h₂; cases h₂
      up := fun i h₁ h₂ => by rw [h₁] at h₂; cases h₂
      replies := by rw [if_neg (by rw [h]; simp)]; rfl
      handlers := fun _ hm => (List.not_mem_nil hm).elim }

/-- A join that reaches a server other than the leader. -/
theorem hasOwnEffect_join {s : Server} {d : Datagram} (hown : d.own = false)
    (ht : d.type = some .join) (hl : s.isLeader = false) : HasOwnEffect s d := by
  have hev : event s d = some (s, ⟨[], [], []⟩) := by
    unfold event caseJoin
    rw [if_neg (by rw [hown]; decide), ht]
    simp only [hl, Bool.false_eq_true, if_false]
  refine ⟨s, _, hev, ?_⟩
  exact
    { leader := by rw [if_neg (by rw [ht]; simp)]
      down := fun i h₁ h₂ => by rw [h₁] at h₂; cases h₂
      up := fun i h₁ h₂ => by rw [h₁] at h₂; cases h₂
      replies := by rw [if_neg (by rw [ht, hl]; simp)]; rfl
      handlers := fun _ hm => (List.not_mem_nil hm).elim }

/-- A `DESTROY` from a server of the table. -/
theorem hasOwnEffect_destroy {s : Server} {d : Datagram} (hown : d.own = false)
    (ht : d.type = some .destroy) (hidx : d.repIdx < s.len) : HasOwnEffect s d := by
  have hev : event s d = some (s.destroyRequest d.repIdx, ⟨[.destroy], [], []⟩) := by
    unfold event caseDestroy
    rw [if_neg (by rw [hown]; decide), ht]
    simp only [if_pos hidx, List.nil_append]
  refine ⟨_, _, hev, ?_⟩
  have hep : ∀ i, i ≠ d.repIdx → (s.destroyRequest d.repIdx).ep i = s.ep i := by
    intro i hne
    exact Function.update_of_ne hne ..
  have hself : ((s.destroyRequest d.repIdx).ep d.repIdx).connected = false := by
    unfold Server.destroyRequest
    simp only [Function.update_self]
  exact
    { leader := by rw [if_neg (by rw [ht]; simp)]; rfl
      down := by
        intro i h₁ h₂
        by_cases hi : i = d.repIdx
        · exact ⟨ht, hi.symm⟩
        · rw [hep i hi, h₁] at h₂
          cases h₂
      up := by
        intro i h₁ h₂
        by_cases hi : i = d.repIdx
        · rw [hi, hself] at h₂
          cases h₂
        · rw [hep i hi, h₁] at h₂
          cases h₂
      replies := by rw [if_neg (by rw [ht]; simp)]; rfl
      handlers := by
        intro h hm
        rw [List.mem_singleton.1 hm]
        exact ht }

/-- One well-formed message has the effect of its type exactly if its case does
not fall through. -/
theorem hasOwnEffect_iff {s : Server} {d : Datagram} (hwf : d.WellFormed s.len) :
    HasOwnEffect s d ↔ NoFallThrough s d := by
  constructor
  · rintro ⟨s', e, hev, heff⟩
    cases hown : d.own with
    | true => exact .inl hown
    | false =>
        unfold event at hev
        rw [if_neg (by rw [hown]; decide)] at hev
        unfold Datagram.WellFormed at hwf
        cases ht : d.type with
        | none =>
            rw [ht] at hwf
            exact hwf.elim
        | some t =>
            rw [ht] at hev
            -- every case but the last one runs on into the handler of another type
            cases t with
            | join =>
                simp only [caseJoin] at hev
                split at hev
                · exact absurd heff (not_ownEffect_of_both (caseRcSyn_handlers hev))
                · next hl => exact .inr (.inr ⟨ht, Bool.not_eq_true _ ▸ hl⟩)
            | rcSyn => exact absurd heff (not_ownEffect_of_both (caseRcSyn_handlers hev))
            | rcSynack => exact absurd heff (not_ownEffect_of_both (caseRcSynack_handlers hev))
            | cfgReply => exact absurd heff (not_ownEffect_of_both (caseCfgReply_handlers hev))
            | destroy => exact .inr (.inl ht)
  · rintro h
    cases hown : d.own with
    | true => exact hasOwnEffect_own hown
    | false =>
        rcases h with h | ht | ⟨ht, hl⟩
        · rw [hown] at h
          cases h
        · refine hasOwnEffect_destroy hown ht ?_
          unfold Datagram.WellFormed at hwf
          rw [ht] at hwf
          exact hwf
        · exact hasOwnEffect_join hown ht hl

/-! ## §6. Sequences of messages. -/

section Field
variable {α : Type*} {f : Server → α}

/-- The messages change endpoints and the leader's id, and nothing else. -/
structure Untouched (f : Server → α) : Prop where
  ep : ∀ s ep, f { s with ep := ep } = f s
  leaderId : ∀ s leaderId, f { s with leaderId := leaderId } = f s

/-- A field that no endpoint is part of. -/
theorem Untouched.establish (hf : Untouched f) (s : Server) (msg : RcSyn) (qpn : Nat) :
    f (s.establish msg qpn) = f s := by
  unfold Server.establish
  split
  · rfl
  · exact hf.ep ..

/-- The last case. -/
theorem Untouched.caseDestroy (hf : Untouched f) {s s' : Server} {d : Datagram} {e e' : Effects}
    (h : caseDestroy s d e = some (s', e')) : f s' = f s := by
  unfold Ud.caseDestroy at h
  split at h
  · cases h
    exact hf.ep ..
  · cases h

/-- The case before it. -/
theorem Untouched.caseCfgReply (hf : Untouched f) {s s' : Server} {d : Datagram} {e e' : Effects}
    (h : caseCfgReply s d e = some (s', e')) : f s' = f s := by
  unfold Ud.caseCfgReply at h
  exact (hf.caseDestroy h).trans (hf.leaderId ..)

/-- The case of `RC_SYNACK`. -/
theorem Untouched.caseRcSynack (hf : Untouched f) {s s' : Server} {d : Datagram} {e e' : Effects}
    (h : caseRcSynack s d e = some (s', e')) : f s' = f s := by
  unfold Ud.caseRcSynack at h
  split at h
  · exact (hf.caseCfgReply h).trans (hf.establish s ..)
  · cases h

/-- The case of `RC_SYN`. -/
theorem Untouched.caseRcSyn (hf : Untouched f) {s s' : Server} {d : Datagram} {e e' : Effects}
    (h : caseRcSyn s d e = some (s', e')) : f s' = f s := by
  unfold Ud.caseRcSyn at h
  split at h
  · exact (hf.caseRcSynack h).trans (hf.establish s ..)
  · cases h

/-- What no message changes. -/
theorem Untouched.event (hf : Untouched f) {s s' : Server} {d : Datagram} {e : Effects}
    (h : event s d = some (s', e)) : f s' = f s := by
  unfold Ud.event at h
  split at h
  · cases h
    rfl
  · split at h
    · unfold caseJoin at h
      split at h
      · exact hf.caseRcSyn h
      · cases h
        rfl
    · exact hf.caseRcSyn h
    · exact hf.caseRcSynack h
    · exact hf.caseCfgReply h
    · exact hf.caseDestroy h
    · cases h
      rfl

end Field

/-- The table of endpoints keeps its length. -/
theorem untouched_len : Untouched Server.len := ⟨fun _ _ => rfl, fun _ _ => rfl⟩

/-- The group keeps its size. -/
theorem untouched_size : Untouched Server.size := ⟨fun _ _ => rfl, fun _ _ => rfl⟩

/-- The node after a datagram. -/
def handled (s : Server) (d : Datagram) : Server :=
  match event s d with
  | some (s', _) => s'
  | none => s

/-- **No datagram changes such a field.** -/
theorem Untouched.handled {α : Type*} {f : Server → α} (hf : Untouched f) (s : Server) (d : Datagram) :
    f (handled s d) = f s := by
  unfold Ud.handled
  split
  next heq => exact hf.event heq
  next => rfl

/-- The node after a message. -/
def receive {len : Nat} (s : Server) (m : Message len) : Server := handled s m.1

/-- **Each message of a sequence has exactly the effect of its type if and only
if none of them falls through.** -/
theorem ownEffect_iff (s : Server) (ms : List (Message s.len)) :
    (∀ v ∈ visits receive s ms, HasOwnEffect v.1 v.2.1)
      ↔ ∀ v ∈ visits receive s ms, NoFallThrough v.1 v.2.1 := by
  refine visits_forall_iff (f := receive) (I := fun t => t.len = s.len)
    (P := fun t m => HasOwnEffect t m.1) (Q := fun t m => NoFallThrough t m.1) ?_ ?_ ms s rfl
  · intro t m ht
    have hwf : m.1.WellFormed t.len := by
      rw [ht]
      exact m.2
    exact hasOwnEffect_iff hwf
  · intro t m ht _
    exact (untouched_len.handled t m.1).trans ht

/-- A CFG_REPLY naming server 0. -/
def cfgReplyZero : Datagram := ⟨writeLE (writeLE zeroed 0 4 214) 16 4 0, false⟩

/-- Node 1 of three, connected to server 0. -/
def nodeOne : Server where
  idx := 1
  leaderId := 9999
  size := 3
  len := 3
  raddr := 0
  rkey := 0
  qpNum := fun _ => 0
  ep := fun i => ⟨i == 0, 0, 0, 0⟩

theorem cfgReplyZero_wellFormed : cfgReplyZero.WellFormed nodeOne.len := by
  have ht : cfgReplyZero.type = some .cfgReply := by decide +kernel
  unfold Datagram.WellFormed
  rw [ht]
  show cfgReplyZero.repIdx < 3
  decide +kernel

/-- The node learns who leads, and drops its connection to the leader. -/
theorem ownEffect_fails :
    ¬ ∀ (s : Server) (ms : List (Message s.len)), ∀ v ∈ visits receive s ms, HasOwnEffect v.1 v.2.1 := by
  intro hall
  obtain ⟨s', e, hev, heff⟩ :=
    hall nodeOne [⟨cfgReplyZero, cfgReplyZero_wellFormed⟩] _ List.mem_cons_self
  have hconn : (event nodeOne cfgReplyZero).map (fun r => (r.1.ep 0).connected) = some false := by
    decide +kernel
  rw [hev] at hconn
  have hdown := heff.down 0 (by decide) (Option.some.inj hconn)
  exact absurd hdown.1 (by decide +kernel)

end RdmaPaxos.Ud
