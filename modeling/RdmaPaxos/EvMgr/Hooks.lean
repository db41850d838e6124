/-
  RdmaPaxos.EvMgr.Hooks
  ─────────────────────
  **THE SOCKET HOOKS OF THE LEADER, ON TOP OF THE GROUP** (`mgr_on_accept`,
  `server_side_on_read`, `mgr_on_recvfrom`, `mgr_on_check` and `mgr_on_close` in
  `ev_mgr/ev_mgr.c`, called from `spec_hooks.cpp`).

  An application thread makes a socket call; the hook around it looks the
  descriptor up in `leader_tcp_map` and submits requests through `rsm_op`, one
  `Call` of the group each.  Any number of threads may be inside hooks at the
  same time (`Mgr.hooks`, one entry per call ever made), and each step below is
  one access to something they share:

      accept   ──▶ add ──▶ connect p ──▶ wait
      read     ──▶ find ──▶ send p ──▶ wait
      recvfrom ──▶ udpFind ──▶ udpAdd ──▶ udpConnect p ──▶ wait ──▶ send p ──▶ wait
      write    ──▶ check ──▶ outputFind ──▶ output p ──▶ wait
      close    ──▶ delOutput ──▶ closeFind ──▶ closeDel p ──▶ close ──▶ wait
                   ──▶ nop ──▶ wait ──▶ origClose

  The operations of `uthash` are taken to be atomic; it adds at the front of a
  chain.  The stamp behind the `clt_id` pointer is read when the request is
  submitted.

  §1  the leader's process;
  §2  the steps of a hook;
  §3  the leader's hooks, the group and the followers' event managers together.
-/
import RdmaPaxos.Consensus.World
import RdmaPaxos.EvMgr.Replay
import RdmaPaxos.Output.Decision

namespace RdmaPaxos.EvMgr

open RdmaPaxos.Output

/-! ## §1. The leader's process. -/

/-- Where a request comes from: the `c`-th socket of the process, or a UDP peer
with this `sa_data`. -/
inductive Source where
  | conn (c : Nat)
  | peer (saData : List UInt8)
  deriving Repr, DecidableEq

/-- What a hook does next; `p` is the `leader_tcp_pair` (or `leader_udp_pair`) it
holds a pointer to. -/
inductive HookPc where
  /-- `HASH_ADD_INT` -/
  | add
  /-- `rsm_op` of a `P_TCP_CONNECT` -/
  | connect (p : Nat)
  /-- `HASH_FIND_INT`, to send `buf` -/
  | find (buf : Buf)
  /-- `rsm_op` of a `P_SEND` -/
  | send (buf : Buf) (p : Nat)
  | udpFind (saData : List UInt8) (buf : Buf)
  | udpAdd (saData : List UInt8) (buf : Buf)
  /-- `rsm_op` of a `P_UDP_CONNECT`, to send `buf` afterwards -/
  | udpConnect (p : Nat) (buf : Buf)
  /-- `store_output` and `determine_output` -/
  | check (data : List UInt8)
  | outputFind (index : Int)
  /-- `rsm_op` of a `P_OUTPUT` -/
  | output (index : Int) (p : Nat)
  | delOutput
  | closeFind
  /-- the stamp is copied, and `HASH_DEL` -/
  | closeDel (p : Nat)
  /-- `rsm_op` of a `P_CLOSE` -/
  | close (vs : ViewStamp)
  /-- `rsm_op` of a `P_NOP` -/
  | nop
  | origClose
  /-- inside `rsm_op`: call `id` of the group has not returned -/
  | wait (id : Nat) (next : HookPc)
  | done

/-- The hook has returned. -/
def HookPc.isDone : HookPc → Bool
  | .done => true
  | _ => false

/-- One hooked call: on which descriptor, where its data comes from, and the
requests it has submitted. -/
structure Hook where
  fd : Nat
  src : Source
  calls : List Nat
  pc : HookPc

/-- A call of `rsm_op`, with the stamp it was given. -/
structure Submission where
  src : Source
  req : Request
  next : ViewStamp

/-- The leader's process: its descriptors, each standing for a socket, and the
event manager. -/
structure Mgr where
  fds : Nat → Option Nat
  opened : Nat
  /-- what the application has read from a socket, call by call, and whether it
  has called `close` on it -/
  reads : Nat → List (List UInt8)
  closed : Nat → Bool
  /-- `leader_tcp_map`: the pairs under each key, latest first -/
  tcpMap : Nat → List Nat
  /-- `leader_udp_map` -/
  udpMap : List UInt8 → List Nat
  /-- the field `vs` of every pair allocated -/
  pairs : List ViewStamp
  output : OutputMgr
  hooks : List Hook
  log : List Submission

/-- The event manager of a process that has just started. -/
def Mgr.new : Mgr where
  fds := fun _ => none
  opened := 0
  reads := fun _ => []
  closed := fun _ => false
  tcpMap := fun _ => []
  udpMap := fun _ => []
  pairs := []
  output := newOutputMgr
  hooks := []
  log := []

/-- The stamp in pair `p`. -/
def Mgr.vs (m : Mgr) (p : Nat) : ViewStamp := m.pairs.getD p ⟨0, 0⟩

/-! ## §2. The steps of a hook. -/

/-- The key `strncpy(tmp, sa_data, 14)` leaves for `HASH_FIND_STR`; without a
zero byte the string does not end. -/
def cString (saData : List UInt8) : Option (List UInt8) :=
  if 0 ∈ saData.take 14 then some ((saData.take 14).takeWhile (· ≠ 0)) else none

/-- No payload. -/
def Buf.empty : Buf := ⟨0, fun _ => 0⟩

/-- A `long` in memory. -/
def Buf.ofLong (index : Int) : Buf :=
  ⟨8, fun i => UInt8.ofNat ((index % 2 ^ 64).toNat / 256 ^ i % 256)⟩

/-- The arguments of `rsm_op`, if that is what the hook does next. -/
def Mgr.request (m : Mgr) : HookPc → Option Request
  | .connect p => some ⟨.tcpConnect, Buf.empty, m.vs p⟩
  | .send buf p => some ⟨.send, buf, m.vs p⟩
  | .udpConnect p _ => some ⟨.udpConnect, Buf.empty, m.vs p⟩
  | .output index p => some ⟨.output, Buf.ofLong index, m.vs p⟩
  | .close vs => some ⟨.close, Buf.empty, vs⟩
  | .nop => some ⟨.nop, Buf.empty, ⟨0, 0⟩⟩
  | _ => none

/-- Where the hook goes on when `rsm_op` returns. -/
def HookPc.returnsTo : HookPc → HookPc
  | .udpConnect p buf => .send buf p
  | .close _ => .nop
  | .nop => .origClose
  | _ => .done

/-- Hook `h` enters `rsm_op` and is given the stamp `next`; a `P_TCP_CONNECT`
writes it back through `clt_id`. -/
def Mgr.rsmOp (m : Mgr) (h : Nat) (k : Hook) (q : Request) (id : Nat) (next : ViewStamp) : Mgr :=
  { m with
    pairs := match k.pc with
      | .connect p => m.pairs.set p next
      | _ => m.pairs
    log := m.log ++ [⟨k.src, q, next⟩]
    hooks := m.hooks.set h { k with calls := k.calls ++ [id], pc := .wait id k.pc.returnsTo } }

/-- Hook `h` goes on at `pc`. -/
def Mgr.goto (m : Mgr) (h : Nat) (k : Hook) (pc : HookPc) : Mgr :=
  { m with hooks := m.hooks.set h { k with pc := pc } }

/-- `malloc`, `memset` and `HASH_ADD_INT` under the key `fd`. -/
def Mgr.addTcp (m : Mgr) (fd : Nat) : Mgr :=
  { m with
    pairs := m.pairs ++ [⟨0, 0⟩]
    tcpMap := Function.update m.tcpMap fd (m.pairs.length :: m.tcpMap fd) }

/-- A new pair for the peer with address `key`. -/
def Mgr.addUdp (m : Mgr) (key : List UInt8) : Mgr :=
  { m with
    pairs := m.pairs ++ [⟨0, 0⟩]
    udpMap := Function.update m.udpMap key (m.pairs.length :: m.udpMap key) }

/-- A step that is not a submission.  Reading through a null pointer and deleting
a pair that is not in the map have no successor. -/
def Mgr.localStep (m : Mgr) (returned : Nat → Bool) (h : Nat) (k : Hook) : Option Mgr :=
  match k.pc with
  | .add => some ((m.addTcp k.fd).goto h k (.connect m.pairs.length))
  | .find buf =>
      match m.tcpMap k.fd with
      | [] => none
      | p :: _ => some (m.goto h k (.send buf p))
  | .udpFind saData buf =>
      match cString saData with
      | none => none
      | some key =>
          match m.udpMap key with
          | [] => some (m.goto h k (.udpAdd saData buf))
          | p :: _ => some (m.goto h k (.send buf p))
  | .udpAdd saData buf =>
      match cString saData with
      | none => none
      | some key => some ((m.addUdp key).goto h k (.udpConnect m.pairs.length buf))
  | .check data =>
      match checkProposal m.output k.fd data true with
      | (output, none) => some ({ m with output := output }.goto h k .done)
      | (output, some index) => some ({ m with output := output }.goto h k (.outputFind index))
  | .outputFind index =>
      match m.tcpMap k.fd with
      | [] => none
      | p :: _ => some (m.goto h k (.output index p))
  | .delOutput => some ({ m with output := (delOutput m.output k.fd).1 }.goto h k .closeFind)
  | .closeFind =>
      match m.tcpMap k.fd with
      | [] => some (m.goto h k .origClose)
      | p :: _ => some (m.goto h k (.closeDel p))
  | .closeDel p =>
      if p ∈ m.tcpMap k.fd then
        some ({ m with
          tcpMap := Function.update m.tcpMap k.fd ((m.tcpMap k.fd).erase p) }.goto h k
            (.close (m.vs p)))
      else none
  | .origClose => some ({ m with fds := Function.update m.fds k.fd none }.goto h k .done)
  | .wait id next => if returned id then some (m.goto h k next) else none
  | _ => none

/-! ## §3. Everything together. -/

/-- The group, the process of its leader, and the followers' event managers. -/
structure Sys where
  world : World
  mgr : Mgr
  replicas : Nat → Replica

/-- The events of the whole. -/
inductive Event where
  /-- a step of the group, other than those below -/
  | world (a : Action)
  /-- the replica thread of node `i`; `fd` is the descriptor `socket` returns -/
  | replica (i : Nat) (stored : Bool) (hash fd : Nat)
  /-- the application of follower `i` accepts a connection, or closes a descriptor -/
  | replicaAccept (i fd : Nat)
  | replicaClose (i fd : Nat)
  /-- the leader's application opens a socket of its own -/
  | socket (fd : Nat)
  /-- a hooked call of the leader's application, with the operating system's answer -/
  | accept (fd : Nat)
  | read (fd : Nat) (buf : Buf)
  | recvfrom (fd : Nat) (saData : List UInt8) (buf : Buf)
  | write (fd : Nat) (data : List UInt8)
  | close (fd : Nat)
  /-- hook `h` goes on -/
  | hook (h : Nat)

/-- A step of the group that no hook and no event manager is part of. -/
def Action.isExternal : Action → Bool
  | .submit .. => false
  | .replica .. => false
  | _ => true

/-- What the event is in the group, if anything. -/
def Sys.action (l : Nat) (s : Sys) : Event → Option Action
  | .world a => some a
  | .replica i stored hash _ =>
      match (s.replicas i).connecting with
      | some _ => none
      | none => some (.replica i stored hash)
  | .hook h => ((s.mgr.hooks[h]?).bind fun k => s.mgr.request k.pc).map (.submit l)
  | _ => none

/-- `rsm_op` returns when its call has. -/
def World.hasReturned (w : World) (id : Nat) : Bool :=
  match w.calls[id]? with
  | some c => decide (c.pc = .done ∨ c.pc = .failed)
  | none => false

/-- A new socket under a free descriptor. -/
def Mgr.openSock (m : Mgr) (fd : Nat) : Option Mgr :=
  if m.fds fd = none then
    some { m with fds := Function.update m.fds fd (some m.opened), opened := m.opened + 1 }
  else none

/-- A hooked call is made. -/
def Mgr.enter (m : Mgr) (fd : Nat) (src : Source) (pc : HookPc) : Mgr :=
  { m with hooks := m.hooks ++ [⟨fd, src, [], pc⟩] }

/-- The leader's process. -/
def Sys.mgrStep (l : Nat) (s : Sys) (e : Event) : Option Mgr :=
  let m := s.mgr
  match e with
  | .world (.start i _) => some (if i = l then .new else m)
  | .world a => if Action.isExternal a then some m else none
  | .socket fd => m.openSock fd
  | .accept fd => (m.openSock fd).map fun m' => m'.enter fd (.conn m.opened) .add
  | .read fd buf =>
      match m.fds fd with
      | some c =>
          if 0 < buf.size then
            some ({ m with reads := Function.update m.reads c (m.reads c ++ [buf.toList]) }.enter
              fd (.conn c) (.find buf))
          else none
      | none => none
  | .recvfrom fd saData buf =>
      match m.fds fd with
      | some _ => some (m.enter fd (.peer saData) (.udpFind saData buf))
      | none => none
  | .write fd data =>
      match m.fds fd with
      | some c => some (m.enter fd (.conn c) (.check data))
      | none => none
  | .close fd =>
      match m.fds fd with
      | some c =>
          some ({ m with closed := Function.update m.closed c true }.enter fd (.conn c) .delOutput)
      | none => none
  | .hook h =>
      match m.hooks[h]? with
      | none => none
      | some k =>
          match m.request k.pc with
          | some q =>
              some (m.rsmOp h k q s.world.calls.length (getNextViewStamp (s.world.nodes l)))
          | none => m.localStep (World.hasReturned s.world) h k
  | .replica .. | .replicaAccept .. | .replicaClose .. => some m

/-- The client of the `P_OUTPUT` entry that node `i` is about to accept. -/
def Sys.outputEntry (s : Sys) (i : Nat) : Option ViewStamp :=
  match (s.world.nodes i).pc with
  | .accept entry =>
      let m := (s.world.nodes i).log.entries
      if ByteMemory.readLE m (entry + offType) 1 = ReqType.code .output then
        some (readVs m (entry + offCltId))
      else none
  | _ => none

/-- The event manager of follower `i`, when its replica thread takes a step: the
`P_OUTPUT` lookup, a call of `update_state`, or the wait inside one. -/
def Sys.replicaStep (s : Sys) (i fd : Nat) : Option Replica :=
  let r := s.replicas i
  match r.connecting with
  | some clt => r.waitAccepted clt
  | none =>
      match (s.world.nodes i).pc with
      | .apply _ index last =>
          if index ≤ last then r.updateState index (s.world.db i index) fd else some r
      | _ =>
          match s.outputEntry i with
          | some clt => (r.getMappingFd clt).map fun _ => r
          | none => some r

/-- The followers' processes. -/
def Sys.replicasStep (s : Sys) : Event → Option (Nat → Replica)
  | .world (.start i _) => some (Function.update s.replicas i .new)
  | .replica i _ _ fd => (s.replicaStep i fd).map (Function.update s.replicas i)
  | .replicaAccept i fd =>
      ((s.replicas i).mgrOnAccept (s.world.db i) fd).map (Function.update s.replicas i)
  | .replicaClose i fd => ((s.replicas i).close fd).map (Function.update s.replicas i)
  | _ => some s.replicas

/-- A process that does not run takes no step. -/
def Sys.runs (l : Nat) (s : Sys) : Event → Bool
  | .world _ => true
  | .replica i .. | .replicaAccept i _ | .replicaClose i _ => (s.world.nodes i).up
  | _ => (s.world.nodes l).up

/-- One event: what the group, the hooks and the event managers of the followers make of it.
-/
def Sys.step (l : Nat) (s : Sys) (e : Event) : Option Sys :=
  if s.runs l e then
    match (match s.action l e with
        | none => some s.world
        | some a => RdmaPaxos.step s.world a), s.mgrStep l e, s.replicasStep e with
    | some world, some mgr, some replicas => some ⟨world, mgr, replicas⟩
    | _, _, _ => none
  else none

/-- A group of `n` nodes with leader `l`, all started and connected. -/
def Sys.booted (n l : Nat) : Sys := ⟨World.booted n l, .new, fun _ => .new⟩

end RdmaPaxos.EvMgr
