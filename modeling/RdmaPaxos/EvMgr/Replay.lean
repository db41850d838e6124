/-
  RdmaPaxos.EvMgr.Replay
  ──────────────────────
  **THE EVENT MANAGER OF A FOLLOWER** (`update_state`, `do_action_*`,
  `get_mapping_fd` and the follower's branch of `mgr_on_accept` in
  `ev_mgr/ev_mgr.c`).

  A follower plays the clients of its own server application: for every
  connection of the leader it opens one to the local server, keeps it in
  `replica_tcp_map` under the stamp of its connect, and writes the payloads to
  it.  Both ends are descriptors of the one process:

      p_s   the event manager's end, opened by `do_action_tcp_connect`
      s_p   the server's end, known once the application has accepted it

  Descriptor numbers are the operating system's: whichever is free.  Every
  socket has an identity of its own here, so that it can be said on which socket
  an action was performed.

  §1  the state;
  §2  the actions of `update_state`;
  §3  which clients are connected, as a function of the records applied.
-/
import RdmaPaxos.Consensus.Entry
import Mathlib.Logic.Function.Basic

namespace RdmaPaxos.EvMgr

/-! ## §1. State. -/

/-- One end of the `id`-th connection to the local server, opened for `clt`. -/
structure Sock where
  clt : ViewStamp
  id : Nat
  server : Bool
  deriving Repr, DecidableEq

/-- `replica_tcp_pair` (its key is where it is kept). -/
structure ReplicaPair where
  pS : Nat
  sP : Nat
  accepted : Bool
  deriving Repr, DecidableEq

/-- What a record makes the event manager do for its client. -/
inductive Act where
  | connect
  | send (data : List UInt8)
  | close
  deriving Repr, DecidableEq

/-- An action `update_state` has performed: for which record and client, and on
which socket. -/
structure Performed where
  index : Nat
  clt : ViewStamp
  act : Act
  sock : Option Sock
  deriving Repr, DecidableEq

/-- A follower's process. -/
structure Replica where
  /-- what the descriptors stand for -/
  fds : Nat → Option Sock
  opened : Nat
  /-- the listening socket's queue: the server ends not accepted yet -/
  backlog : List Sock
  /-- `replica_tcp_map` -/
  tcpMap : ViewStamp → Option ReplicaPair
  curRec : Nat
  /-- the replica thread waits in `do_action_tcp_connect` for this client's pair -/
  connecting : Option ViewStamp
  performed : List Performed

/-- A process that has just been started. -/
def Replica.new : Replica where
  fds := fun _ => none
  opened := 0
  backlog := []
  tcpMap := fun _ => none
  curRec := 0
  connecting := none
  performed := []

/-! ## §2. The actions. -/

/-- The socket opened next. -/
def Replica.nextSock (r : Replica) (clt : ViewStamp) (server : Bool) : Sock := ⟨clt, r.opened, server⟩

/-- The part common to `do_action_tcp_connect` and `do_action_udp_connect`: a pair
is made if there is none, and gets the new socket, whose descriptor is `fd`. -/
def Replica.openFor (r : Replica) (index : Nat) (clt : ViewStamp) (fd : Nat) : Replica :=
  { r with
    fds := Function.update r.fds fd (some (r.nextSock clt false))
    opened := r.opened + 1
    tcpMap := Function.update r.tcpMap clt
      (some { (r.tcpMap clt).getD ⟨0, 0, false⟩ with pS := fd })
    performed := r.performed ++ [⟨index, clt, .connect, some (r.nextSock clt false)⟩] }

/-- `do_action_tcp_connect`, up to the loop in which it waits for `accepted`. -/
def Replica.doActionTcpConnect (r : Replica) (index : Nat) (clt : ViewStamp) (fd : Nat) : Replica :=
  { r.openFor index clt fd with
    backlog := r.backlog ++ [r.nextSock clt true]
    connecting := some clt }

/-- `do_action_udp_connect`. -/
def Replica.doActionUdpConnect (r : Replica) (index : Nat) (clt : ViewStamp) (fd : Nat) : Replica :=
  r.openFor index clt fd

/-- `do_action_send`; the socket takes the whole payload. -/
def Replica.doActionSend (r : Replica) (index : Nat) (clt : ViewStamp) (data : List UInt8) :
    Replica :=
  match r.tcpMap clt with
  | none => r
  | some pair => { r with performed := r.performed ++ [⟨index, clt, .send data, r.fds pair.pS⟩] }

/-- `do_action_close`. -/
def Replica.doActionClose (r : Replica) (index : Nat) (clt : ViewStamp) : Replica :=
  match r.tcpMap clt with
  | none => r
  | some pair =>
      { r with
        fds := Function.update r.fds pair.pS none
        tcpMap := Function.update r.tcpMap clt none
        performed := r.performed ++ [⟨index, clt, .close, r.fds pair.pS⟩] }

/-- The `switch` of `update_state`. -/
def Replica.dispatch (r : Replica) (index : Nat) (rec : Record) (fd : Nat) : Replica :=
  if rec.type = ReqType.code .tcpConnect then r.doActionTcpConnect index rec.clt fd
  else if rec.type = ReqType.code .udpConnect then r.doActionUdpConnect index rec.clt fd
  else if rec.type = ReqType.code .send then r.doActionSend index rec.clt rec.data
  else if rec.type = ReqType.code .close then r.doActionClose index rec.clt
  else r

/-- `update_state`, with what the store holds under `index`; a missing record is
a null pointer.  `fd` is the free descriptor `socket` returns, if it is called. -/
def Replica.updateState (r : Replica) (index : Nat) (stored : Option Buf) (fd : Nat) :
    Option Replica :=
  match stored with
  | none => none
  | some b =>
      if r.fds fd = none then
        some ({ r with curRec := index }.dispatch index (Record.decode b) fd)
      else none

/-- The application accepts the first connection of the queue as descriptor `fd`,
and `mgr_on_accept` enters it into the pair of the record at `cur_rec`.  Nothing
happens while the store has no such record; a missing pair is a null pointer. -/
def Replica.mgrOnAccept (r : Replica) (db : Nat → Option Buf) (fd : Nat) : Option Replica :=
  match r.backlog, db r.curRec with
  | sock :: rest, some b =>
      match r.tcpMap (Record.decode b).clt with
      | some pair =>
          if r.fds fd = none then
            some { r with
              fds := Function.update r.fds fd (some sock)
              backlog := rest
              tcpMap := Function.update r.tcpMap (Record.decode b).clt
                (some { pair with sP := fd, accepted := true }) }
          else none
      | none => none
  | _, _ => none

/-- The application closes one of its own descriptors; on a follower
`mgr_on_close` touches the stored output only. -/
def Replica.close (r : Replica) (fd : Nat) : Option Replica :=
  match r.fds fd with
  | some sock => if sock.server then some { r with fds := Function.update r.fds fd none } else none
  | none => none

/-- The loop at the end of `do_action_tcp_connect`. -/
def Replica.waitAccepted (r : Replica) (clt : ViewStamp) : Option Replica :=
  match r.tcpMap clt with
  | some pair => if pair.accepted then some { r with connecting := none } else some r
  | none => none

/-- `get_mapping_fd`; a missing pair is a null pointer. -/
def Replica.getMappingFd (r : Replica) (clt : ViewStamp) : Option Nat := (r.tcpMap clt).map ReplicaPair.sP

/-! ## §3. Which clients are connected. -/

/-- The action a record stands for. -/
def actOf (rec : Record) : Option (ViewStamp × Act) :=
  if rec.type = ReqType.code .tcpConnect then some (rec.clt, .connect)
  else if rec.type = ReqType.code .udpConnect then some (rec.clt, .connect)
  else if rec.type = ReqType.code .send then some (rec.clt, .send rec.data)
  else if rec.type = ReqType.code .close then some (rec.clt, .close)
  else none

/-- The actions of one client among those of all. -/
def actsFor (clt : ViewStamp) (xs : List (ViewStamp × Act)) : List Act :=
  (xs.filter fun x => x.1 = clt).map Prod.snd

/-- Connected after one more action. -/
def Act.connects (before : Bool) : Act → Bool
  | .connect => true
  | .send _ => before
  | .close => false

/-- Whether a client is connected after its actions. -/
def connected (acts : List Act) : Bool := acts.foldl Act.connects false

/-- Looking up in a table after one entry changed. -/
theorem update_get {α β : Type*} [DecidableEq α] {f : α → Option β} {a b : α} {v : Option β} {x : β}
    (h : Function.update f a v b = some x) : (b = a ∧ v = some x) ∨ (b ≠ a ∧ f b = some x) := by
  rcases eq_or_ne b a with rfl | hne
  · rw [Function.update_self] at h
    exact .inl ⟨rfl, h⟩
  · rw [Function.update_of_ne hne] at h
    exact .inr ⟨hne, h⟩

/-- Looking up in a table from which an entry was removed. -/
theorem update_none_get {α β : Type*} [DecidableEq α] {f : α → Option β} {a b : α} {x : β}
    (h : Function.update f a none b = some x) : f b = some x := by
  rcases update_get h with ⟨-, hnone⟩ | ⟨-, hold⟩
  · cases hnone
  · exact hold

/-- The actions of a client, in two parts. -/
theorem actsFor_append (clt : ViewStamp) (xs ys : List (ViewStamp × Act)) :
    actsFor clt (xs ++ ys) = actsFor clt xs ++ actsFor clt ys := by
  unfold actsFor
  rw [List.filter_append, List.map_append]

theorem actsFor_single (clt : ViewStamp) (x : ViewStamp × Act) :
    actsFor clt [x] = if x.1 = clt then [x.2] else [] := by
  unfold actsFor
  by_cases h : x.1 = clt <;> simp [h]

/-- One more action. -/
theorem connected_concat (acts : List Act) (a : Act) :
    connected (acts ++ [a]) = a.connects (connected acts) := by
  unfold connected
  rw [List.foldl_append]
  rfl

/-- What a follower's process is after the actions `xs`: exactly the connected
clients have a pair, with the event manager's end of their own connection, and
whatever was done for a client was done on a socket opened for it. -/
structure Replica.Ok (xs : List (ViewStamp × Act)) (r : Replica) : Prop where
  pair : ∀ clt, (r.tcpMap clt).isSome = connected (actsFor clt xs)
  client : ∀ clt pair, r.tcpMap clt = some pair → ∃ id, r.fds pair.pS = some ⟨clt, id, false⟩
  queue : ∀ sock ∈ r.backlog, sock.server = true
  own : ∀ p ∈ r.performed, ∃ id, p.sock = some ⟨p.clt, id, false⟩

/-- A process that has just started. -/
theorem Replica.Ok.new : Replica.new.Ok [] where
  pair clt := rfl
  client clt pair h := by cases h
  queue sock h := by cases h
  own p h := by cases h

section Ok
variable {xs : List (ViewStamp × Act)} {r r' : Replica} {index fd : Nat} {clt : ViewStamp}

/-- Another client's action does not matter. -/
theorem pair_append (h : ∀ c, (r.tcpMap c).isSome = connected (actsFor c xs)) {a : Act}
    (hself : (r'.tcpMap clt).isSome = a.connects (r.tcpMap clt).isSome)
    (hother : ∀ c, c ≠ clt → r'.tcpMap c = r.tcpMap c) (c : ViewStamp) :
    (r'.tcpMap c).isSome = connected (actsFor c (xs ++ [(clt, a)])) := by
  rw [actsFor_append, actsFor_single]
  rcases eq_or_ne c clt with rfl | hne
  · rw [if_pos rfl, connected_concat, ← h, hself]
  · rw [if_neg (Ne.symm hne), List.append_nil, ← h, hother c hne]

/-- A connection is opened for the client. -/
theorem Replica.Ok.openFor (h : r.Ok xs) (hfd : r.fds fd = none) :
    (r.openFor index clt fd).Ok (xs ++ [(clt, .connect)]) := by
  refine ⟨pair_append h.pair ?_ ?_, ?_, h.queue, ?_⟩
  · show ((Function.update r.tcpMap clt _) clt).isSome = true
    rw [Function.update_self]
    rfl
  · intro c hne
    exact Function.update_of_ne hne ..
  · intro c pair hpair
    show ∃ id, Function.update r.fds fd _ pair.pS = _
    rcases update_get hpair with ⟨rfl, hnew⟩ | ⟨hne, hold⟩
    · cases hnew
      exact ⟨r.opened, Function.update_self ..⟩
    · obtain ⟨id, hid⟩ := h.client c pair hold
      -- the new descriptor was free
      have hne' : pair.pS ≠ fd := by
        rintro rfl
        rw [hfd] at hid
        cases hid
      exact ⟨id, (Function.update_of_ne hne' ..).trans hid⟩
  · intro p hp
    rcases List.mem_append.mp hp with hold | hlast
    · exact h.own p hold
    · obtain rfl := List.mem_singleton.mp hlast
      exact ⟨r.opened, rfl⟩

/-- `do_action_send`. -/
theorem Replica.Ok.doActionSend (h : r.Ok xs) (data : List UInt8) :
    (r.doActionSend index clt data).Ok (xs ++ [(clt, .send data)]) := by
  unfold Replica.doActionSend
  split
  next hnone => exact ⟨pair_append h.pair rfl fun _ _ => rfl, h.client, h.queue, h.own⟩
  next pair hpair =>
    refine ⟨pair_append h.pair rfl fun _ _ => rfl, h.client, h.queue, ?_⟩
    intro p hp
    rcases List.mem_append.mp hp with hold | hlast
    · exact h.own p hold
    · obtain rfl := List.mem_singleton.mp hlast
      exact h.client clt pair hpair

/-- `do_action_close`. -/
theorem Replica.Ok.doActionClose (h : r.Ok xs) :
    (r.doActionClose index clt).Ok (xs ++ [(clt, .close)]) := by
  unfold Replica.doActionClose
  split
  next hnone =>
    refine ⟨pair_append h.pair ?_ fun _ _ => rfl, h.client, h.queue, h.own⟩
    rw [hnone]
    rfl
  next pair hpair =>
    refine ⟨pair_append h.pair ?_ ?_, ?_, h.queue, ?_⟩
    · show ((Function.update r.tcpMap clt none) clt).isSome = false
      rw [Function.update_self]
      rfl
    · intro c hne
      exact Function.update_of_ne hne ..
    · intro c pair' hpair'
      rcases update_get hpair' with ⟨-, hnew⟩ | ⟨hne, hold⟩
      · cases hnew
      obtain ⟨id, hid⟩ := h.client c pair' hold
      obtain ⟨id', hid'⟩ := h.client clt pair hpair
      -- two clients have two sockets
      have hfd : pair'.pS ≠ pair.pS := by
        intro heq
        rw [heq, hid'] at hid
        cases hid
        exact hne rfl
      exact ⟨id, (Function.update_of_ne hfd ..).trans hid⟩
    · intro p hp
      rcases List.mem_append.mp hp with hold | hlast
      · exact h.own p hold
      · obtain rfl := List.mem_singleton.mp hlast
        exact h.client clt pair hpair

/-- **One call of `update_state`.** -/
theorem Replica.Ok.updateState (h : r.Ok xs) {b : Buf}
    (hstep : r.updateState index (some b) fd = some r') :
    r'.Ok (xs ++ (actOf (Record.decode b)).toList) := by
  simp only [Replica.updateState] at hstep
  split at hstep
  next hfd =>
    cases hstep
    have hcur : ({ r with curRec := index } : Replica).Ok xs := ⟨h.pair, h.client, h.queue, h.own⟩
    unfold Replica.dispatch actOf
    split_ifs
    · -- a TCP connect also joins the queue of the server's socket
      have hopen : (Replica.openFor _ index (Record.decode b).clt fd).Ok _ := hcur.openFor hfd
      refine ⟨hopen.pair, hopen.client, ?_, hopen.own⟩
      intro sock hs
      rcases List.mem_append.mp hs with hold | hlast
      · exact h.queue sock hold
      · obtain rfl := List.mem_singleton.mp hlast
        rfl
    · exact hcur.openFor hfd
    · exact hcur.doActionSend _
    · exact hcur.doActionClose
    · rw [Option.toList_none, List.append_nil]
      exact hcur
  next => cases hstep

/-- A turn of the waiting loop. -/
theorem Replica.Ok.waitAccepted (h : r.Ok xs) (hstep : r.waitAccepted clt = some r') : r'.Ok xs := by
  unfold Replica.waitAccepted at hstep
  split at hstep
  · split at hstep
    · cases hstep
      exact ⟨h.pair, h.client, h.queue, h.own⟩
    · cases hstep
      exact h
  · cases hstep

/-- The application accepts. -/
theorem Replica.Ok.mgrOnAccept (h : r.Ok xs) {db : Nat → Option Buf}
    (hstep : r.mgrOnAccept db fd = some r') : r'.Ok xs := by
  unfold Replica.mgrOnAccept at hstep
  split at hstep
  next sock rest b hqueue hb =>
    split at hstep
    next pair hpair =>
      split at hstep
      next hfd =>
        cases hstep
        -- the number was free, so it is no client's end
        have hclient : ∀ {c : ViewStamp} {old : ReplicaPair}, r.tcpMap c = some old →
            ∃ id, Function.update r.fds fd (some sock) old.pS = some ⟨c, id, false⟩ := by
          intro c old hold
          obtain ⟨id, hid⟩ := h.client c old hold
          have hne : old.pS ≠ fd := by
            intro heq
            rw [heq, hfd] at hid
            cases hid
          exact ⟨id, (Function.update_of_ne hne ..).trans hid⟩
        refine ⟨fun c => ?_, fun c new hnew => ?_, fun s hs => h.queue s ?_, h.own⟩
        · rw [← h.pair]
          show (Function.update r.tcpMap _ _ c).isSome = _
          rcases eq_or_ne c (Record.decode b).clt with rfl | hne
          · rw [Function.update_self, hpair]
            rfl
          · rw [Function.update_of_ne hne]
        · rcases update_get hnew with ⟨rfl, hval⟩ | ⟨-, hold⟩
          · cases hval
            have hsame := hclient hpair
            exact hsame
          · exact hclient hold
        · rw [hqueue]
          exact List.mem_cons_of_mem _ hs
      next => cases hstep
    next => cases hstep
  next => cases hstep

/-- The application closes a descriptor. -/
theorem Replica.Ok.close (h : r.Ok xs) (hstep : r.close fd = some r') : r'.Ok xs := by
  unfold Replica.close at hstep
  split at hstep
  next sock hsock =>
    split at hstep
    next hserver =>
      cases hstep
      refine ⟨h.pair, fun c pair hpair => ?_, h.queue, h.own⟩
      obtain ⟨id, hid⟩ := h.client c pair hpair
      -- it is not the event manager's end
      have hne : pair.pS ≠ fd := by
        rintro rfl
        rw [hsock] at hid
        cases hid
        cases hserver
      exact ⟨id, (Function.update_of_ne hne ..).trans hid⟩
    next => cases hstep
  next => cases hstep

end Ok

end RdmaPaxos.EvMgr
