/-
  RdmaPaxos.Ud.Connection
  ───────────────────────
  **JOINING, LEAVING AND JOINING AGAIN.**

  Nodes exchange the addresses of their log regions and their queue pair numbers
  with RC_SYN and RC_SYNACK; an endpoint that is already connected ignores both.
  Here each message is handled by its own handler, and datagrams may be lost,
  duplicated, delayed and reordered: a packet once sent may be delivered at any
  later time, any number of times, or never.

    • `agreed_of_current` — if only packets of a sender's current incarnation are
      used to connect, and a node starts again only when nobody is connected to
      its previous incarnation, connected peers agree on queue pairs and regions;
    • `agreed_fails` — a lost DESTROY leaves the leader connected to a queue pair
      and a region that no longer exist, and the restarted node connects to it.
-/
import RdmaPaxos.Ud.Event

namespace RdmaPaxos.Ud

open RdmaPaxos.Run

/-! ## §1. Nodes and packets. -/

/-- The messages of the UD channel. -/
inductive Msg where
  | join
  | destroy (idx : Nat)
  | sent (m : Sent)
  deriving Repr, DecidableEq

/-- A datagram: its sender, the node it is addressed to (multicast if none), and
the incarnation of the sender. -/
structure Packet where
  src : Nat
  dst : Option Nat
  inc : Nat
  msg : Msg
  deriving Repr, DecidableEq

/-- A node of the group. -/
structure Peer where
  up : Bool
  /-- how often the node has been started -/
  inc : Nat
  server : Server

/-- The nodes, and the packets between them. -/
structure Net where
  peers : Nat → Peer
  /-- every packet ever sent -/
  sent : List Packet

/-- `launch_rdma` on node `i`: fresh queue pairs, a fresh log region, fresh
endpoints. -/
def freshServer (n i : Nat) (leaderId raddr rkey : Nat) (qpNum : Nat → Nat) : Server where
  idx := i
  leaderId := leaderId
  size := n
  len := n
  raddr := raddr
  rkey := rkey
  qpNum := qpNum
  ep := fun _ => ⟨false, 0, 0, 0⟩

/-- Nobody has been started. -/
def Net.initial (n : Nat) : Net where
  peers := fun i => ⟨false, 0, freshServer n i 9999 0 0 fun _ => 0⟩
  sent := []

/-- Node `i` becomes `p`. -/
def Net.setPeer (net : Net) (i : Nat) (p : Peer) : Net :=
  { net with peers := Function.update net.peers i p }

/-- The data of node `i` becomes `s`. -/
def Net.setServer (net : Net) (i : Nat) (s : Server) : Net :=
  net.setPeer i { net.peers i with server := s }

/-- Node `i` sends a message. -/
def Net.post (net : Net) (i : Nat) (dst : Option Nat) (m : Msg) : Net :=
  { net with sent := net.sent ++ [⟨i, dst, (net.peers i).inc, m⟩] }

/-- An RC_SYN with its list of queue pair numbers. -/
def synOf (raddr rkey idx : Nat) (qpns : List Nat) : RcSyn := ⟨raddr, rkey, idx, fun j => qpns.getD j 0⟩

/-- An RC_SYNACK with its one queue pair number. -/
def synackOf (raddr rkey idx qpn : Nat) : RcSyn := ⟨raddr, rkey, idx, fun _ => qpn⟩

/-- Node `j` handles a packet. -/
def Net.handle (net : Net) (j : Nat) (p : Packet) : Net :=
  let s := (net.peers j).server
  match p.msg with
  | .join => if s.isLeader then net.post j (some p.src) (.sent s.joinRequest) else net
  | .sent (.cfgReply idx) =>
      (net.setServer j (s.joinReply idx)).post j none (.sent (s.joinReply idx).exchangeRcInfo)
  | .sent (.rcSyn raddr rkey idx qpns) =>
      let r := s.rcSyn (synOf raddr rkey idx qpns)
      (net.setServer j r.1).post j (some p.src) (.sent r.2)
  | .sent (.rcSynack raddr rkey idx qpn) => net.setServer j (s.rcSynack (synackOf raddr rkey idx qpn))
  | .destroy idx => net.setServer j (s.destroyRequest idx)

/-- The steps: nodes start and stop, send, and receive what was sent at any time. -/
inductive NetAction where
  /-- node `i` is started, or its RDMA is launched again -/
  | start (i leaderId raddr rkey : Nat) (qpNum : Nat → Nat)
  | stop (i : Nat)
  /-- `ud_join_cluster` -/
  | join (i : Nat)
  /-- `ud_destroy_request` -/
  | destroy (i : Nat)
  /-- packet `k` reaches node `j` -/
  | deliver (k j : Nat)

/-- One step. -/
def Net.step (n : Nat) (net : Net) : NetAction → Option Net
  | .start i leaderId raddr rkey qpNum =>
      if i < n then
        some (net.setPeer i ⟨true, (net.peers i).inc + 1, freshServer n i leaderId raddr rkey qpNum⟩)
      else none
  | .stop i => if i < n then some (net.setPeer i { net.peers i with up := false }) else none
  | .join i => if i < n ∧ (net.peers i).up then some (net.post i none .join) else none
  | .destroy i => if i < n ∧ (net.peers i).up then some (net.post i none (.destroy i)) else none
  | .deliver k j =>
      match net.sent[k]? with
      | some p =>
          if j < n ∧ (net.peers j).up ∧ p.src ≠ j ∧ (p.dst = none ∨ p.dst = some j) then
            some (net.handle j p)
          else none
      | none => none

/-! ## §2. Agreement. -/

/-- Endpoint `e` of node `i` holds the queue pair number and the region that
`peer` has now. -/
def Ep.For (e : Ep) (peer : Server) (i : Nat) : Prop :=
  e.qpn = peer.qpNum i ∧ e.raddr = peer.raddr ∧ e.rkey = peer.rkey

/-- Running nodes connected to each other hold each other's current data. -/
def Agreed (n : Nat) (net : Net) : Prop :=
  ∀ a b, a < n → b < n → (net.peers a).up = true → (net.peers b).up = true →
    ((net.peers a).server.ep b).connected = true → ((net.peers b).server.ep a).connected = true →
    ((net.peers a).server.ep b).For (net.peers b).server a
    ∧ ((net.peers b).server.ep a).For (net.peers a).server b

/-- Whether a packet sets up a connection. -/
def Msg.connects : Msg → Bool
  | .sent (.rcSyn ..) => true
  | .sent (.rcSynack ..) => true
  | _ => false

/-- A node is started only when no running node is connected to it, and an
RC_SYN or RC_SYNACK is handled only while its sender has not been started
again. -/
def Current (n : Nat) (net : Net) : NetAction → Prop
  | .start i .. => ∀ j, j < n → (net.peers j).up = true → ((net.peers j).server.ep i).connected = false
  | .deliver k _ =>
      match net.sent[k]? with
      | some p => p.msg.connects = true → p.inc = (net.peers p.src).inc
      | none => True
  | _ => True

instance (n : Nat) (net : Net) : ∀ a : NetAction, Decidable (Current n net a)
  | .start i .. =>
      inferInstanceAs (Decidable (∀ j, j < n → (net.peers j).up = true →
        ((net.peers j).server.ep i).connected = false))
  | .deliver k _ =>
      match h : net.sent[k]? with
      | some p =>
          decidable_of_iff (p.msg.connects = true → p.inc = (net.peers p.src).inc)
            (by simp only [Current, h])
      | none => .isTrue (by simp only [Current, h])
  | .stop _ => inferInstanceAs (Decidable True)
  | .join _ => inferInstanceAs (Decidable True)
  | .destroy _ => inferInstanceAs (Decidable True)

/-! ## §3. The invariant. -/

/-- The packet says what its sender, while the same incarnation runs, has. -/
def Packet.Truthful (p : Packet) (s : Server) : Prop :=
  match p.msg with
  | .sent (.rcSyn raddr rkey idx qpns) =>
      raddr = s.raddr ∧ rkey = s.rkey ∧ idx = p.src ∧ qpns = (List.range s.size).map s.qpNum
  | .sent (.rcSynack raddr rkey idx qpn) =>
      raddr = s.raddr ∧ rkey = s.rkey ∧ idx = p.src ∧ ∀ d, p.dst = some d → qpn = s.qpNum d
  | _ => True

/-- RC_SYNACK is always addressed to one node. -/
def Packet.Addressed (p : Packet) : Prop :=
  ∀ raddr rkey idx qpn, p.msg = .sent (.rcSynack raddr rkey idx qpn) → ∃ d, p.dst = some d

/-- What holds in every state: what a packet says was so when it was sent. -/
structure NetInv (n : Nat) (net : Net) : Prop where
  own : ∀ i, (net.peers i).server.idx = i ∧ (net.peers i).server.size = n
  packets : ∀ p ∈ net.sent, p.inc ≤ (net.peers p.src).inc ∧ p.Addressed
    ∧ (p.inc = (net.peers p.src).inc → p.Truthful (net.peers p.src).server)
  connected : ∀ i j, i < n → (net.peers i).up = true →
    ((net.peers i).server.ep j).connected = true →
    ((net.peers i).server.ep j).For (net.peers j).server i

/-- Before any node is started. -/
theorem NetInv.initial (n : Nat) : NetInv n (Net.initial n) where
  own := fun _ => ⟨rfl, rfl⟩
  packets := fun _ hp => (List.not_mem_nil hp).elim
  connected := fun _ _ _ h => by cases h

/-- What the handlers leave as it is. -/
structure Server.Same (s s' : Server) : Prop where
  idx : s'.idx = s.idx
  size : s'.size = s.size
  raddr : s'.raddr = s.raddr
  rkey : s'.rkey = s.rkey
  qpNum : s'.qpNum = s.qpNum

theorem Server.Same.refl (s : Server) : s.Same s := ⟨rfl, rfl, rfl, rfl, rfl⟩

/-- Establishing an endpoint changes nothing of the server itself. -/
theorem Server.same_establish (s : Server) (msg : RcSyn) (qpn : Nat) : s.Same (s.establish msg qpn) := by
  unfold Server.establish
  split
  · exact .refl s
  · exact ⟨rfl, rfl, rfl, rfl, rfl⟩

/-- What an endpoint is connected to depends on the other server itself only. -/
theorem Ep.For.congr {e : Ep} {s s' : Server} {i : Nat} (h : e.For s i) (hs : s.Same s') : e.For s' i := by
  unfold Ep.For
  rw [hs.qpNum, hs.raddr, hs.rkey]
  exact h

/-- And so does what a packet says. -/
theorem Packet.Truthful.congr {p : Packet} {s s' : Server} (h : p.Truthful s) (hs : s.Same s') :
    p.Truthful s' := by
  unfold Packet.Truthful at h ⊢
  rw [hs.raddr, hs.rkey, hs.size, hs.qpNum]
  exact h

/-! ## §4. Steps. -/

section Steps

variable {n : Nat} {net : Net}

theorem setPeer_self (i : Nat) (p : Peer) : (net.setPeer i p).peers i = p := Function.update_self ..

theorem setPeer_ne {i j : Nat} (p : Peer) (h : j ≠ i) : (net.setPeer i p).peers j = net.peers j :=
  Function.update_of_ne h ..

theorem setServer_peers_self (i : Nat) (s : Server) :
    (net.setServer i s).peers i = { net.peers i with server := s } := Function.update_self ..

theorem setServer_peers_ne {i j : Nat} (s : Server) (h : j ≠ i) :
    (net.setServer i s).peers j = net.peers j := Function.update_of_ne h ..

theorem setServer_inc (i j : Nat) (s : Server) :
    ((net.setServer i s).peers j).inc = (net.peers j).inc := by
  by_cases h : j = i
  · rw [h, setServer_peers_self]
  · rw [setServer_peers_ne s h]

theorem setServer_up (i j : Nat) (s : Server) :
    ((net.setServer i s).peers j).up = (net.peers j).up := by
  by_cases h : j = i
  · rw [h, setServer_peers_self]
  · rw [setServer_peers_ne s h]

/-- A step of one node that leaves it the same leaves all nodes the same. -/
theorem setServer_same {i : Nat} {s : Server} (hs : (net.peers i).server.Same s) (j : Nat) :
    (net.peers j).server.Same ((net.setServer i s).peers j).server := by
  by_cases h : j = i
  · rw [h, setServer_peers_self]
    exact hs
  · rw [setServer_peers_ne s h]
    exact .refl _

/-- A handler ran at node `i`: it keeps what others know of `i`, and connects
only to data that is current. -/
theorem NetInv.setServer (h : NetInv n net) {i : Nat} {s : Server}
    (hs : (net.peers i).server.Same s)
    (hep : ∀ j, (s.ep j).connected = true →
      s.ep j = (net.peers i).server.ep j ∨ (s.ep j).For (net.peers j).server i) :
    NetInv n (net.setServer i s) where
  own := by
    intro j
    have hj := setServer_same hs j
    rw [hj.idx, hj.size]
    exact h.own j
  packets := by
    intro p hp
    have hp : p ∈ net.sent := hp
    obtain ⟨hinc, haddr, htruth⟩ := h.packets p hp
    rw [setServer_inc]
    exact ⟨hinc, haddr, fun he => (htruth he).congr (setServer_same hs p.src)⟩
  connected := by
    intro a b ha hup hconn
    rw [setServer_up] at hup
    -- an endpoint of the node is as before, or was set up from its peer's data
    by_cases hai : a = i
    · subst hai
      rw [setServer_peers_self] at hconn ⊢
      have hconn : (s.ep b).connected = true := hconn
      have hfor : (s.ep b).For (net.peers b).server a := by
        rcases hep b hconn with heq | hfor
        · rw [heq] at hconn ⊢
          exact h.connected a b ha hup hconn
        · exact hfor
      exact hfor.congr (setServer_same hs b)
    · rw [setServer_peers_ne s hai] at hconn ⊢
      exact (h.connected a b ha hup hconn).congr (setServer_same hs b)

/-- Sending a packet that says the truth. -/
theorem NetInv.post (h : NetInv n net) {i : Nat} {dst : Option Nat} {m : Msg}
    (haddr : Packet.Addressed ⟨i, dst, (net.peers i).inc, m⟩)
    (htruth : Packet.Truthful ⟨i, dst, (net.peers i).inc, m⟩ (net.peers i).server) :
    NetInv n (net.post i dst m) where
  own := h.own
  packets := by
    intro p hp
    rcases List.mem_append.1 hp with hp | hp
    · exact h.packets p hp
    · cases List.mem_singleton.1 hp
      exact ⟨Nat.le_refl _, haddr, fun _ => htruth⟩
  connected := h.connected

/-- An endpoint set up from a current packet is right. -/
theorem establish_ep {s : Server} {msg : RcSyn} {qpn : Nat} {peer : Server} {i : Nat}
    (hfor : qpn = peer.qpNum i ∧ msg.raddr = peer.raddr ∧ msg.rkey = peer.rkey) (j : Nat) :
    (s.establish msg qpn).ep j = s.ep j
      ∨ j = msg.idx ∧ ((s.establish msg qpn).ep j).For peer i := by
  unfold Server.establish
  split
  · exact .inl rfl
  · by_cases hj : j = msg.idx
    · right
      refine ⟨hj, ?_⟩
      subst hj
      show Ep.For (Function.update s.ep msg.idx _ msg.idx) peer i
      rw [Function.update_self]
      exact hfor
    · left
      exact Function.update_of_ne hj ..

/-- Starting a node that nobody is connected to. -/
theorem NetInv.start (h : NetInv n net) {i leaderId raddr rkey : Nat} {qpNum : Nat → Nat}
    (hfree : ∀ j, j < n → (net.peers j).up = true → ((net.peers j).server.ep i).connected = false) :
    NetInv n (net.setPeer i
      ⟨true, (net.peers i).inc + 1, freshServer n i leaderId raddr rkey qpNum⟩) := by
  refine ⟨?_, ?_, ?_⟩
  · intro j
    by_cases hj : j = i
    · rw [hj, setPeer_self]
      exact ⟨rfl, rfl⟩
    · rw [setPeer_ne _ hj]
      exact h.own j
  · intro p hp
    have hp : p ∈ net.sent := hp
    obtain ⟨hinc, haddr, htruth⟩ := h.packets p hp
    by_cases hsrc : p.src = i
    · -- its packets are all of earlier incarnations
      rw [hsrc, setPeer_self]
      rw [hsrc] at hinc
      refine ⟨by simp only; omega, haddr, ?_⟩
      intro he
      simp only at he
      omega
    · rw [setPeer_ne _ hsrc]
      exact ⟨hinc, haddr, htruth⟩
  · intro a b ha hup hconn
    by_cases hai : a = i
    · rw [hai, setPeer_self] at hconn
      cases hconn
    · rw [setPeer_ne _ hai] at hup hconn ⊢
      by_cases hbi : b = i
      · rw [hbi, hfree a ha hup] at hconn
        cases hconn
      · rw [setPeer_ne _ hbi]
        exact h.connected a b ha hup hconn

/-- A node stops. -/
theorem NetInv.stop (h : NetInv n net) (i : Nat) :
    NetInv n (net.setPeer i { net.peers i with up := false }) := by
  obtain ⟨down, hdown⟩ : ∃ p : Peer, p = { net.peers i with up := false } := ⟨_, rfl⟩
  rw [← hdown]
  have hserver : ∀ j, ((net.setPeer i down).peers j).server = (net.peers j).server := by
    intro j
    by_cases hj : j = i
    · rw [hj, setPeer_self, hdown]
    · rw [setPeer_ne _ hj]
  have hinc : ∀ j, ((net.setPeer i down).peers j).inc = (net.peers j).inc := by
    intro j
    by_cases hj : j = i
    · rw [hj, setPeer_self, hdown]
    · rw [setPeer_ne _ hj]
  refine ⟨?_, ?_, ?_⟩
  · intro j
    rw [hserver]
    exact h.own j
  · intro p hp
    rw [hserver, hinc]
    exact h.packets p hp
  · intro a b ha hup hconn
    rw [hserver] at hconn ⊢
    rw [hserver]
    refine h.connected a b ha ?_ hconn
    -- nothing is asked of a node that is down
    by_cases hai : a = i
    · rw [hai, setPeer_self, hdown] at hup
      cases hup
    · rwa [setPeer_ne _ hai] at hup

/-- Node `j` connects to `src` with the data `src` has now. -/
theorem NetInv.establish (h : NetInv n net) (j : Nat) {src qpn : Nat} {msg : RcSyn}
    (hidx : msg.idx = src) (hqpn : qpn = (net.peers src).server.qpNum j)
    (hraddr : msg.raddr = (net.peers src).server.raddr)
    (hrkey : msg.rkey = (net.peers src).server.rkey) :
    NetInv n (net.setServer j ((net.peers j).server.establish msg qpn)) := by
  refine h.setServer (Server.same_establish ..) ?_
  intro k _
  rcases establish_ep ⟨hqpn, hraddr, hrkey⟩ k with heq | ⟨hk, hfor⟩
  · exact .inl heq
  · right
    rw [hk, hidx] at hfor ⊢
    exact hfor

/-- Any other packet may be for everyone. -/
theorem addressed_of_ne {p : Packet} (h : ∀ raddr rkey idx qpn, p.msg ≠ .sent (.rcSynack raddr rkey idx qpn)) :
    p.Addressed := by
  intro raddr rkey idx qpn he
  exact absurd he (h raddr rkey idx qpn)

/-- Handling a packet whose sender, if it connects, has not been started again. -/
theorem NetInv.handle (h : NetInv n net) {j : Nat} {p : Packet} (hj : j < n) (hp : p ∈ net.sent)
    (hdst : p.dst = none ∨ p.dst = some j)
    (hcur : p.msg.connects = true → p.inc = (net.peers p.src).inc) : NetInv n (net.handle j p) := by
  obtain ⟨-, haddr, htruth⟩ := h.packets p hp
  obtain ⟨hidx, hsize⟩ := h.own j
  unfold Net.handle
  cases hm : p.msg with
  | join =>
      simp only
      split
      · exact h.post (addressed_of_ne fun _ _ _ _ he => by cases he) trivial
      · exact h
  | destroy idx =>
      refine h.setServer ⟨rfl, rfl, rfl, rfl, rfl⟩ ?_
      intro k hk
      left
      by_cases hki : k = idx
      · subst hki
        have hoff : (((net.peers j).server.destroyRequest k).ep k).connected = false := by
          unfold Server.destroyRequest
          simp only [Function.update_self]
        rw [hoff] at hk
        cases hk
      · exact Function.update_of_ne hki ..
  | sent m =>
      cases m with
      | cfgReply idx =>
          have hset : NetInv n (net.setServer j ((net.peers j).server.joinReply idx)) :=
            h.setServer ⟨rfl, rfl, rfl, rfl, rfl⟩ fun k _ => .inl rfl
          refine hset.post (addressed_of_ne fun _ _ _ _ he => by cases he) ?_
          rw [setServer_peers_self]
          exact ⟨rfl, rfl, hidx, rfl⟩
      | rcSyn raddr rkey idx qpns =>
          have hs := htruth (hcur (by rw [hm]; rfl))
          unfold Packet.Truthful at hs
          rw [hm] at hs
          obtain ⟨rfl, rfl, rfl, rfl⟩ := hs
          obtain ⟨msg, hmsg⟩ : ∃ m, m = synOf (net.peers p.src).server.raddr
            (net.peers p.src).server.rkey p.src
            ((List.range (net.peers p.src).server.size).map (net.peers p.src).server.qpNum) := ⟨_, rfl⟩
          simp only [← hmsg]
          -- the sender's queue pair number for this node
          have hqpn : msg.qpns (net.peers j).server.idx = (net.peers p.src).server.qpNum j := by
            rw [hidx, hmsg]
            simp only [synOf]
            rw [(h.own p.src).2, List.getD_eq_getElem?_getD, List.getElem?_map, List.getElem?_range hj]
            rfl
          have hset := h.establish j (by rw [hmsg]; rfl : msg.idx = p.src) hqpn (by rw [hmsg]; rfl)
            (by rw [hmsg]; rfl)
          have hsame := Server.same_establish (net.peers j).server msg
            (msg.qpns (net.peers j).server.idx)
          refine hset.post (fun _ _ _ _ _ => ⟨_, rfl⟩) ?_
          rw [setServer_peers_self]
          refine ⟨hsame.raddr.symm, hsame.rkey.symm, hidx, ?_⟩
          intro d hd
          cases hd
          show (net.peers j).server.qpNum msg.idx = _
          rw [show msg.idx = p.src by rw [hmsg]; rfl]
          exact congrFun hsame.qpNum.symm _
      | rcSynack raddr rkey idx qpn =>
          have hs := htruth (hcur (by rw [hm]; rfl))
          unfold Packet.Truthful at hs
          rw [hm] at hs
          obtain ⟨rfl, rfl, rfl, hq⟩ := hs
          obtain ⟨d, hd⟩ := haddr _ _ _ _ hm
          have hdj : d = j := by
            rcases hdst with hnone | hsome
            · rw [hnone] at hd
              cases hd
            · rw [hsome] at hd
              exact (Option.some.inj hd).symm
          exact h.establish j rfl (hdj ▸ hq d hd) rfl rfl

/-- **The step lemma.** -/
theorem NetInv.preserved (h : NetInv n net) {net' : Net} {a : NetAction} (hok : Current n net a)
    (hs : net.step n a = some net') : NetInv n net' := by
  cases a with
  | start i leaderId raddr rkey qpNum =>
      simp only [Net.step] at hs
      split at hs
      · cases hs
        exact h.start hok
      · cases hs
  | stop i =>
      simp only [Net.step] at hs
      split at hs
      · cases hs
        exact h.stop i
      · cases hs
  | join i =>
      simp only [Net.step] at hs
      split at hs
      · cases hs
        exact h.post (addressed_of_ne fun _ _ _ _ he => by cases he) trivial
      · cases hs
  | destroy i =>
      simp only [Net.step] at hs
      split at hs
      · cases hs
        exact h.post (addressed_of_ne fun _ _ _ _ he => by cases he) trivial
      · cases hs
  | deliver k j =>
      simp only [Net.step] at hs
      cases hk : net.sent[k]? with
      | none =>
          rw [hk] at hs
          cases hs
      | some p =>
          rw [hk] at hs
          simp only at hs
          split at hs
          · next hg =>
            cases hs
            -- the packet is of the current incarnation, so what it says is true
            refine h.handle hg.1 (List.mem_of_getElem? hk) hg.2.2.2 ?_
            simp only [Current, hk] at hok
            exact hok
          · cases hs

end Steps

/-! ## §5. Connected peers agree. -/

/-- **If connections are set up from packets of the current incarnation only, and
a node is started only when nobody is connected to it, connected peers agree in
every state of every run.** -/
theorem agreed_of_current {n : Nat} {net : Net}
    (h : Reaches (Net.step n) (Current n) (Net.initial n) net) : Agreed n net := by
  have hinv : NetInv n net :=
    h.invariant (NetInv.initial n) fun _ _ _ hI hok hs => hI.preserved hok hs
  intro a b ha hb hupa hupb hab hba
  exact ⟨hinv.connected a b ha hupa hab, hinv.connected b a hb hupb hba⟩

/-- Node 0 leads, node 1 joins and both connect. -/
def joinOnce : List NetAction :=
  [.start 0 0 100 1 fun _ => 10, .start 1 9999 200 2 fun _ => 20, .join 1, .deliver 0 0, .deliver 1 1,
    .deliver 2 0, .deliver 3 1]

/-- The endpoints of nodes 0 and 1 for each other. -/
def Net.eps (net : Net) : Bool × Ep × Bool × Ep :=
  ((net.peers 0).up, (net.peers 0).server.ep 1, (net.peers 1).up, (net.peers 1).server.ep 0)

/-- A run in which one node joins another. -/
theorem agreed_joinOnce :
    ∃ net, net.eps = (true, ⟨true, 200, 2, 20⟩, true, ⟨true, 100, 1, 10⟩) ∧ Agreed 2 net := by
  obtain ⟨net, hnet, hv⟩ := exists_reaches_of_execOk (Net.step 2) (Current 2) (Net.initial 2) joinOnce
    Net.eps (v := (true, ⟨true, 200, 2, 20⟩, true, ⟨true, 100, 1, 10⟩)) (by decide +kernel)
  exact ⟨net, hv, agreed_of_current hnet⟩

/-- Node 1 leaves, its DESTROY is lost, and it is started and joins again. -/
def joinTwice : List NetAction :=
  joinOnce ++ [.destroy 1, .stop 1, .start 1 9999 300 3 fun _ => 30, .join 1, .deliver 5 0,
    .deliver 6 1, .deliver 7 0, .deliver 8 1]

/-- Node 0 still holds the queue pair and the region of the first incarnation. -/
theorem agreed_fails :
    ¬ ∀ n net, Reaches (Net.step n) (fun _ _ => True) (Net.initial n) net → Agreed n net := by
  intro hall
  obtain ⟨net, hnet, hv⟩ := exists_reaches_of_execOk (Net.step 2) (fun _ _ => True) (Net.initial 2)
    joinTwice (fun net => (net.eps, (net.peers 1).server.qpNum 0))
    (v := ((true, ⟨true, 200, 2, 20⟩, true, ⟨true, 100, 1, 10⟩), 30)) (by decide +kernel)
  simp only [Net.eps, Prod.mk.injEq] at hv
  obtain ⟨⟨hup₀, hep₀, hup₁, hep₁⟩, hqp⟩ := hv
  have hagreed := (hall 2 net hnet 0 1 (by decide) (by decide) hup₀ hup₁ (by rw [hep₀]) (by rw [hep₁])).1.1
  rw [hep₀, hqp] at hagreed
  exact absurd hagreed (by decide)

end RdmaPaxos.Ud
