/-
  RdmaPaxos.EvMgr.Identity
  ────────────────────────
  **CLIENT IDENTITIES.**

  A client is known to the followers by the stamp its connect was given.  For a
  TCP connection `leader_handle_submit_req` writes the stamp back into the pair
  under `if (type == P_TCP_CONNECT)`; there is no such line for a
  `P_UDP_CONNECT`, so the pair of a UDP peer keeps the stamp `(0, 0)` it was
  zeroed with:

      TCP   connect (1,k)   sends, outputs and close carry (1,k)
      UDP   connect (1,k)   everything carries (0,0)

  §1  the stamps the leader gives out;
  §2  what is submitted for a UDP peer, in every run;
  §3  the theorem, and one datagram.
-/
import RdmaPaxos.EvMgr.Close
import RdmaPaxos.Consensus.Keys
import RdmaPaxos.EvMgr.Follower

namespace RdmaPaxos.EvMgr

open RdmaPaxos.Run RdmaPaxos.Output RdmaPaxos.Ticket

/-! ## §1. Stamps. -/

/-- **The stamps in the log are those of the first requests**, whatever becomes of
the log's entries. -/
theorem stamped_reaches {ok : Sys → Event → Prop} {l n : Nat} {s : Sys} (hl : l < n)
    (hok : ∀ s e, ok s e → Lift l (OneProcess l) s e)
    (h : Reaches (Sys.step l) ok (Sys.booted n l) s) : Stamped s.mgr.log := by
  have hrun := reaches_world hok h
  have hnum : Numbering l s.world := leaderRun_reaches hl (hrun.mono fun _ _ => OneProcess.leaderRun)
  have hlinked : s.Linked := by
    refine h.invariant (I := Sys.Linked) (show Sys.Linked (Sys.booted n l) from rfl)
      fun s e s' hlinked hoke hs => ?_
    refine hlinked.preserved (Sys.stepped hs) fun modeS heq => ?_
    subst heq
    exact absurd rfl (hok s _ hoke _ rfl)
  exact hlinked.stamped (oneProcess_short hrun) fun id c hc => (hnum.call id c hc).2

/-! ## §2. UDP peers. -/

/-- A hook on behalf of a UDP peer: whatever pair it holds is in `leader_udp_map`. -/
def UdpPc (m : Mgr) : HookPc → Prop
  | .udpConnect p _ | .send _ p | .wait _ (.send _ p) => ∃ key, p ∈ m.udpMap key
  | .udpFind _ _ | .udpAdd _ _ | .done | .wait _ .done => True
  | _ => False

/-- The pair whose stamp the hook is going to write. -/
def HookPc.connects : HookPc → Option Nat
  | .connect p => some p
  | .wait _ next => next.connects
  | _ => none

/-- The pairs of `leader_udp_map` are never written to. -/
structure UdpInv (m : Mgr) : Prop where
  zero : ∀ key, ∀ p ∈ m.udpMap key, m.pairs[p]? = some ⟨0, 0⟩
  tcp : ∀ k ∈ m.hooks, ∀ p ∈ k.pc.connects, p < m.pairs.length ∧ ∀ key, p ∉ m.udpMap key
  hook : ∀ k ∈ m.hooks, ∀ saData, k.src = .peer saData → UdpPc m k.pc
  log : ∀ sub ∈ m.log, ∀ saData, sub.src = .peer saData → sub.req.cltId sub.next = ⟨0, 0⟩

section Udp
variable {m m' : Mgr} {h : Nat} {k : Hook} {pc : HookPc}

theorem UdpInv.new : UdpInv Mgr.new where
  zero _ _ h := by cases h
  tcp _ h := by cases h
  hook _ h := by cases h
  log _ h := by cases h

theorem UdpPc.mono (h : UdpPc m pc) (hmap : ∀ key p, p ∈ m.udpMap key → p ∈ m'.udpMap key) :
    UdpPc m' pc := by
  unfold UdpPc at h ⊢
  split at h
  · exact h.imp fun key hp => hmap key _ hp
  · exact h.imp fun key hp => hmap key _ hp
  · exact h.imp fun key hp => hmap key _ hp
  all_goals exact h

/-- A pair of `leader_udp_map` has been allocated. -/
theorem UdpInv.lt (hm : UdpInv m) {key : List UInt8} {p : Nat} (hp : p ∈ m.udpMap key) :
    p < m.pairs.length := (List.getElem?_eq_some_iff.mp (hm.zero key p hp)).1

/-- A call is made; the tables stay. -/
theorem UdpInv.enter (hm : UdpInv m) (hmap : m'.udpMap = m.udpMap) (hpairs : m'.pairs = m.pairs)
    (hhooks : m'.hooks = m.hooks) (hlog : m'.log = m.log) (fd : Nat) (src : Source)
    (hconn : pc.connects = none) (hpc : ∀ saData, src = .peer saData → UdpPc m pc) :
    UdpInv (m'.enter fd src pc) := by
  refine ⟨fun key p hp => ?_, fun k hk p hp => ?_, fun k hk saData hsrc => ?_, fun sub hsub => ?_⟩
  · show m'.pairs[p]? = _
    rw [hpairs]
    exact hm.zero key p (hmap ▸ hp)
  · show p < m'.pairs.length ∧ ∀ key, p ∉ m'.udpMap key
    rw [hpairs, hmap]
    rcases List.mem_append.mp (show k ∈ m'.hooks ++ [_] from hk) with hold | hlast
    · exact hm.tcp k (hhooks ▸ hold) p hp
    · obtain rfl := List.mem_singleton.mp hlast
      rw [show HookPc.connects _ = none from hconn] at hp
      cases hp
  · refine UdpPc.mono (m := m) ?_ fun key p hp => show p ∈ m'.udpMap key from hmap ▸ hp
    rcases List.mem_append.mp (show k ∈ m'.hooks ++ [_] from hk) with hold | hlast
    · exact hm.hook k (hhooks ▸ hold) saData hsrc
    · obtain rfl := List.mem_singleton.mp hlast
      exact hpc saData hsrc
  · exact hm.log sub (hlog ▸ hsub)

/-- A hook goes on, or submits. -/
theorem UdpInv.move (hm : UdpInv m) (m' : Mgr) (calls : List Nat) (pc : HookPc) (hk : m.hooks[h]? = some k)
    (hhooks : m'.hooks = m.hooks.set h { k with calls := calls, pc := pc })
    (hzero : ∀ key, ∀ p ∈ m'.udpMap key, m'.pairs[p]? = some ⟨0, 0⟩)
    (hgrow : m.pairs.length ≤ m'.pairs.length)
    (hkept : ∀ key p, p ∈ m.udpMap key → p ∈ m'.udpMap key)
    (hnew : ∀ key p, p < m.pairs.length → p ∈ m'.udpMap key → p ∈ m.udpMap key)
    (hconn : ∀ p ∈ pc.connects, p < m'.pairs.length ∧ ∀ key, p ∉ m'.udpMap key)
    (hpc : ∀ saData, k.src = .peer saData → UdpPc m k.pc → UdpPc m' pc)
    (hlog : ∀ sub ∈ m'.log, sub ∈ m.log ∨ ∀ saData, sub.src = .peer saData →
      sub.req.cltId sub.next = ⟨0, 0⟩) : UdpInv m' := by
  refine ⟨hzero, fun k' hk' p hp => ?_, fun k' hk' saData hsrc => ?_, fun sub hsub => ?_⟩
  · rw [hhooks] at hk'
    rcases List.mem_or_eq_of_mem_set hk' with hold | rfl
    · obtain ⟨hlt, hno⟩ := hm.tcp k' hold p hp
      exact ⟨hlt.trans_le hgrow, fun key hmem => hno key (hnew key p hlt hmem)⟩
    · exact hconn p hp
  · rw [hhooks] at hk'
    rcases List.mem_or_eq_of_mem_set hk' with hold | rfl
    · exact (hm.hook k' hold saData hsrc).mono hkept
    · exact hpc saData hsrc (hm.hook k (List.mem_of_getElem? hk) saData hsrc)
  · exact (hlog sub hsub).elim (fun hold => hm.log sub hold) id

/-- A hook goes on; the pairs and `leader_udp_map` stay. -/
theorem UdpInv.goto (hm : UdpInv m) (hk : m.hooks[h]? = some k) (hmap : m'.udpMap = m.udpMap)
    (hpairs : m'.pairs = m.pairs) (hhooks : m'.hooks = m.hooks) (hlog : m'.log = m.log)
    (hconn : ∀ p ∈ pc.connects, p ∈ k.pc.connects)
    (hpc : ∀ saData, k.src = .peer saData → UdpPc m k.pc → UdpPc m pc) :
    UdpInv (m'.goto h k pc) := by
  have hgmap : (m'.goto h k pc).udpMap = m.udpMap := hmap
  have hgpairs : (m'.goto h k pc).pairs = m.pairs := hpairs
  refine hm.move (m'.goto h k pc) k.calls pc hk ?_ ?_ ?_ ?_ ?_ ?_ ?_ ?_
  · show m'.hooks.set h _ = _
    rw [hhooks]
  · rw [hgmap, hgpairs]
    exact hm.zero
  · rw [hgpairs]
  · rw [hgmap]
    exact fun _ _ hp => hp
  · rw [hgmap]
    exact fun _ _ _ hp => hp
  · rw [hgmap, hgpairs]
    exact fun p hp => hm.tcp k (List.mem_of_getElem? hk) p (hconn p hp)
  · exact fun saData hsrc hold => (hpc saData hsrc hold).mono fun key p hp => by rw [hgmap]; exact hp
  · exact fun sub hsub => .inl (hlog ▸ hsub)

/-- `HASH_ADD` of a pair for a TCP connection. -/
theorem UdpInv.addTcp (hm : UdpInv m) (hk : m.hooks[h]? = some k) (hpc : k.pc = .add) :
    UdpInv ((m.addTcp k.fd).goto h k (.connect m.pairs.length)) := by
  have hlen : ((m.addTcp k.fd).goto h k (.connect m.pairs.length)).pairs.length
      = m.pairs.length + 1 := List.length_append
  refine hm.move _ k.calls _ hk rfl (fun key p hp => ?_) (by omega) (fun _ _ hp => hp)
    (fun _ _ _ hp => hp) (fun p hp => ?_) (fun saData hsrc hold => ?_) fun sub hsub => .inl hsub
  · show (m.pairs ++ [⟨0, 0⟩])[p]? = _
    rw [List.getElem?_append_left (hm.lt hp)]
    exact hm.zero key p hp
  · obtain rfl : m.pairs.length = p := Option.some.inj hp
    refine ⟨by omega, fun key hmem => ?_⟩
    have hlt := hm.lt (show m.pairs.length ∈ m.udpMap key from hmem)
    omega
  · rw [hpc] at hold
    exact hold.elim

/-- `HASH_ADD` of a pair for a UDP peer. -/
theorem UdpInv.addUdp (hm : UdpInv m) (hk : m.hooks[h]? = some k) (key : List UInt8) (buf : Buf) :
    UdpInv ((m.addUdp key).goto h k (.udpConnect m.pairs.length buf)) := by
  have hlen : ((m.addUdp key).goto h k (.udpConnect m.pairs.length buf)).pairs.length
      = m.pairs.length + 1 := List.length_append
  -- the chain under `key` has one more pair, the others are as they were
  have hmem : ∀ key' p, p ∈ Function.update m.udpMap key (m.pairs.length :: m.udpMap key) key' →
      p = m.pairs.length ∨ p ∈ m.udpMap key' := by
    intro key' p hp
    rcases eq_or_ne key' key with rfl | hne
    · rw [Function.update_self] at hp
      exact List.mem_cons.mp hp
    · rw [Function.update_of_ne hne] at hp
      exact .inr hp
  have hkept : ∀ key' p, p ∈ m.udpMap key' →
      p ∈ Function.update m.udpMap key (m.pairs.length :: m.udpMap key) key' := by
    intro key' p hp
    rcases eq_or_ne key' key with rfl | hne
    · rw [Function.update_self]
      exact List.mem_cons_of_mem _ hp
    · rw [Function.update_of_ne hne]
      exact hp
  refine hm.move _ k.calls _ hk rfl (fun key' p hp => ?_) (by omega) hkept (fun key' p hlt hp => ?_)
    nofun (fun saData hsrc hold => ⟨key, ?_⟩) fun sub hsub => .inl hsub
  · show (m.pairs ++ [⟨0, 0⟩])[p]? = _
    rcases hmem key' p hp with rfl | hold
    · exact List.getElem?_concat_length
    · rw [List.getElem?_append_left (hm.lt hold)]
      exact hm.zero key' p hold
  · exact (hmem key' p hp).resolve_left hlt.ne
  · show m.pairs.length ∈ Function.update m.udpMap key _ key
    rw [Function.update_self]
    exact List.mem_cons_self

theorem UdpInv.localStep {returned : Nat → Bool} (hm : UdpInv m) (hk : m.hooks[h]? = some k)
    (hstep : LocalStep m returned h k m') : UdpInv m' := by
  obtain ⟨fd, src, calls, pc⟩ := k
  cases hstep with
  | add hpc => exact hm.addTcp hk hpc
  | udpAdd => exact hm.addUdp hk _ _
  | udpNew => exact hm.goto hk rfl rfl rfl rfl nofun fun _ _ _ => trivial
  | @udpFind _ key _ _ _ _ _ hmap =>
      refine hm.goto hk rfl rfl rfl rfl nofun fun _ _ _ => ⟨key, ?_⟩
      rw [hmap]
      exact List.mem_cons_self
  | @returns _ next hpc =>
      obtain rfl : pc = _ := hpc
      refine hm.goto hk rfl rfl rfl rfl (fun p hp => hp) fun saData hsrc hold => ?_
      cases next with
      | send | done => exact hold
      | _ => exact hold.elim
  | find hpc | stored hpc | proposed hpc | outputFind hpc | delOutput hpc | unmapped hpc
  | closeFind hpc | closeDel hpc | origClose hpc =>
      -- no hook of a UDP peer comes here
      obtain rfl : pc = _ := hpc
      exact hm.goto hk rfl rfl rfl rfl nofun fun _ _ hold => hold.elim

theorem UdpInv.submit {q : Request} (hm : UdpInv m) (hk : m.hooks[h]? = some k)
    (hq : m.request k.pc = some q) (id : Nat) (next : ViewStamp) : UdpInv (m.rsmOp h k q id next) := by
  obtain ⟨fd, src, calls, pc⟩ := k
  have hmem := List.mem_of_getElem? hk
  -- what is submitted for a UDP peer carries the stamp of a pair in the map
  have hclt : ∀ saData, src = .peer saData → q.cltId next = ⟨0, 0⟩ := by
    intro saData hsrc
    have hold := hm.hook _ hmem saData hsrc
    have hvs : ∀ p, (∃ key, p ∈ m.udpMap key) → m.vs p = ⟨0, 0⟩ := by
      rintro p ⟨key, hp⟩
      unfold Mgr.vs
      rw [List.getD_eq_getElem?_getD, hm.zero key p hp]
      rfl
    cases pc with
    | send buf p | udpConnect p buf =>
        cases hq
        exact hvs p hold
    | connect | output | close | nop => exact hold.elim
    | _ => cases hq
  refine hm.move _ (calls ++ [id]) (.wait id pc.returnsTo) hk rfl (fun key p hp => ?_) ?_
    (fun _ _ hp => hp) (fun _ _ _ hp => hp) ?_ (fun saData hsrc hold => ?_) fun sub hsub => ?_
  · cases pc with
    | connect p' =>
        have hne : p' ≠ p := fun heq => (hm.tcp _ hmem p' rfl).2 key (heq ▸ hp)
        show (m.pairs.set p' next)[p]? = _
        rw [List.getElem?_set_ne hne]
        exact hm.zero key p hp
    | _ => exact hm.zero key p hp
  · cases pc with
    | connect => exact List.length_set.ge
    | _ => exact Nat.le_refl _
  · cases pc <;> nofun
  · cases pc with
    | send | done => trivial
    | udpConnect => exact hold
    | connect | output | close | nop => exact hold.elim
    | _ => cases hq
  · rcases List.mem_append.mp hsub with hold | hlast
    · exact .inl hold
    · obtain rfl := List.mem_singleton.mp hlast
      exact .inr hclt

end Udp

section UdpRun
variable {l n : Nat} {s s' : Sys} {e : Event}

theorem UdpInv.preserved (hm : UdpInv s.mgr) (hstep : Sys.Stepped l s e s') : UdpInv s'.mgr := by
  have hmgr := mgrStep_cases hstep.mgr
  generalize s'.mgr = m' at hmgr ⊢
  cases hmgr with
  | restart => exact .new
  | start | world | replica | replicaAccept | replicaClose => exact hm
  | socket hopen =>
      obtain ⟨-, rfl⟩ := openSock_eq hopen
      exact ⟨hm.zero, hm.tcp, fun k hk saData hsrc => (hm.hook k hk saData hsrc).mono fun _ _ hp => hp,
        hm.log⟩
  | accept hopen =>
      obtain ⟨-, rfl⟩ := openSock_eq hopen
      refine hm.enter ?_ ?_ ?_ ?_ _ _ ?_ ?_ <;> first | rfl | nofun
  | read | write | close => refine hm.enter ?_ ?_ ?_ ?_ _ _ ?_ ?_ <;> first | rfl | nofun
  | recvfrom => exact hm.enter rfl rfl rfl rfl _ _ rfl fun _ _ => trivial
  | submit hk hq => exact hm.submit hk hq _ _
  | hook hk _ hlocal => exact hm.localStep hk hlocal

/-- **Whatever is submitted for a UDP peer, in any run at all, carries `(0, 0)`.** -/
theorem udpInv_reaches {ok : Sys → Event → Prop} (h : Reaches (Sys.step l) ok (Sys.booted n l) s) :
    UdpInv s.mgr :=
  h.invariant (I := fun s => UdpInv s.mgr) UdpInv.new fun _ _ _ hm _ hs =>
    hm.preserved (Sys.stepped hs)

end UdpRun

/-! ## §3. The theorem. -/

/-- The `msg_vs` of the connect entry of a connection or peer. -/
def connectStamp (log : List Submission) (src : Source) : Option ViewStamp :=
  (log.find? fun sub => decide (sub.src = src
    ∧ (sub.req.type = .tcpConnect ∨ sub.req.type = .udpConnect))).map Submission.next

/-- What the `clt_id`s of the entries have to be. -/
structure IdsOk (log : List Submission) : Prop where
  /-- two connections or peers never share one -/
  unique : ∀ sub ∈ log, ∀ sub' ∈ log, sub.req.type ≠ .nop → sub'.req.type ≠ .nop →
    sub.req.cltId sub.next = sub'.req.cltId sub'.next → sub.src = sub'.src
  /-- a payload carries the stamp of the connect of its connection or peer -/
  named : ∀ sub ∈ log, sub.req.type = .send →
    connectStamp log sub.src = some (sub.req.cltId sub.next)

/-- The record node `f` hands to `update_state` next. -/
def Sys.nextRecord (s : Sys) (f : Nat) : Option Record :=
  match (s.replicas f).connecting, (s.world.nodes f).pc with
  | none, .apply _ index last =>
      if index ≤ last then (s.world.db f index).map Record.decode else none
  | _, _ => none

/-- A connect record about to be handled finds no `replica_tcp_pair` under its id. -/
def Sys.ConnectsFresh (s : Sys) (f : Nat) : Prop :=
  ∀ rec, s.nextRecord f = some rec →
    rec.type = ReqType.code .tcpConnect ∨ rec.type = ReqType.code .udpConnect →
    (s.replicas f).tcpMap rec.clt = none

section Ids
variable {n l f : Nat} {s : Sys}

/-- Without UDP peers the connect of a connection is its `P_TCP_CONNECT`. -/
theorem SerialInv.connectStamp_eq {m : Mgr} (hm : SerialInv m) (c : Nat) :
    connectStamp m.log (.conn c) = stampIn m.log c := by
  unfold connectStamp stampIn
  rw [← List.head?_filter, ← List.head?_filter]
  congr 2
  refine List.filter_congr fun sub hsub => ?_
  obtain ⟨_, -, hudp, -⟩ := hm.ids sub hsub
  simp only [hudp, or_false]

theorem SerialInv.idsOk {m : Mgr} (hm : SerialInv m) (hst : Stamped m.log) : IdsOk m.log := by
  refine ⟨fun sub hsub sub' hsub' htype htype' heq => ?_, fun sub hsub htype => ?_⟩
  · obtain ⟨c, hsrc, -, hid⟩ := hm.ids sub hsub
    obtain ⟨c', hsrc', -, hid'⟩ := hm.ids sub' hsub'
    have hcc : c = c' := hst.stampIn_inj (hid htype) (by rw [hid' htype', heq])
    rw [hsrc, hsrc', hcc]
  · obtain ⟨c, hsrc, -, hid⟩ := hm.ids sub hsub
    rw [hsrc, hm.connectStamp_eq]
    exact hid (by rw [htype]; nofun)

/-- A payload of a UDP peer carries no stamp that was ever given out. -/
theorem UdpInv.not_idsOk {m : Mgr} (hm : UdpInv m) (hst : Stamped m.log) {sub : Submission}
    {saData : List UInt8} (hsub : sub ∈ m.log) (hsrc : sub.src = .peer saData)
    (htype : sub.req.type = .send) : ¬ IdsOk m.log := by
  intro hids
  have hzero := hm.log sub hsub saData hsrc
  have hstamp := hids.named sub hsub htype
  rw [hzero] at hstamp
  unfold connectStamp at hstamp
  obtain ⟨con, hcon, hnext⟩ := Option.map_eq_some_iff.mp hstamp
  obtain ⟨i, hi⟩ := List.mem_iff_getElem?.mp (List.mem_of_find?_eq_some hcon)
  rw [hst.next i con hi] at hnext
  have hview : (1 : UInt32) = 0 := congrArg ViewStamp.viewId hnext
  exact absurd hview (by decide)

/-- Every record but a connect's is that of another action. -/
theorem actOf_connect {rec : Record}
    (h : rec.type = ReqType.code .tcpConnect ∨ rec.type = ReqType.code .udpConnect) :
    actOf rec = some (rec.clt, .connect) := by
  unfold actOf
  rcases h with h | h
  · rw [if_pos h]
  · rw [h]
    rfl

/-- **Client identities.**  They are unique and the payloads carry them, in every run
in which the leader's application has TCP connections only and the hooked calls on
one descriptor do not overlap; as long as no log wraps, a connect on a follower then
never meets another client's pair.  A single payload of a UDP peer breaks them, in
any run. -/
theorem clientIds_unique (hl : l < n) :
    (∀ s, Reaches (Sys.step l) (TcpRun l (OneProcess l)) (Sys.booted n l) s → IdsOk s.mgr.log)
    ∧ (∀ s f, Reaches (Sys.step l) (TcpRun l (OneLap l)) (Sys.booted n l) s → f ≠ l →
        s.ConnectsFresh f)
    ∧ ∀ s, Reaches (Sys.step l) (Lift l (OneProcess l)) (Sys.booted n l) s →
        ∀ sub ∈ s.mgr.log, ∀ saData, sub.src = .peer saData → sub.req.type = .send →
          ¬ IdsOk s.mgr.log := by
  refine ⟨fun s hrun => ?_, fun s f hrun hf rec hrec htype => ?_, fun s hrun sub hsub saData => ?_⟩
  · have hm := serialInv_reaches (fun _ _ hok => hok.2) hrun
    exact hm.idsOk (stamped_reaches hl (fun _ _ hok => hok.1) hrun)
  · have hinv : ReplayInv Request.Short l s :=
      replayInv_reaches hl (fun _ _ hok => hok) (fun _ _ _ => .inl fun _ hq => hq) hrun
    unfold Sys.nextRecord at hrec
    split at hrec
    next entry index last hnone hpc =>
      split at hrec
      next hle =>
        obtain ⟨b, hb, rfl⟩ := Option.map_eq_some_iff.mp hrec
        have hiff := hinv.pair_iff hf hpc hle hb (actOf_connect htype)
        exact Option.not_isSome_iff_eq_none.mp fun hsome => hiff.mp hsome rfl
      next => cases hrec
    next => cases hrec
  · exact (udpInv_reaches hrun).not_idsOk (stamped_reaches hl (fun _ _ hok => hok) hrun) hsub

end Ids

/-- A connection is accepted and read from, and the follower is about to handle its
connect. -/
def acceptRead : List Event :=
  [.accept 5, .hook 0] ++ submitRuns 0 0 217 (replicaRuns 1 6 0)
    ++ [.read 5 ⟨1, fun _ => 65⟩, .hook 1, .hook 1] ++ callRuns 1 7
    ++ [.world (.deliverEntry 1 1 218)] ++ replicaRuns 1 6 0

theorem clientIds_unique_acceptRead :
    ∃ s, Reaches (Sys.step 0) (TcpRun 0 (OneLap 0)) (Sys.booted 2 0) s
      ∧ s.mgr.log.map (fun sub => sub.req.cltId sub.next) = [⟨1, 1⟩, ⟨1, 1⟩] ∧ IdsOk s.mgr.log
      ∧ s.nextRecord 1 = some ⟨1, ⟨1, 1⟩, []⟩ ∧ (s.replicas 1).tcpMap ⟨1, 1⟩ = none := by
  obtain ⟨s, hrun, hview⟩ := exists_reaches_of_execOk (Sys.step 0) (TcpRun 0 (OneLap 0))
    (Sys.booted 2 0) acceptRead
    (fun s => (s.mgr.log.map (fun sub => sub.req.cltId sub.next), s.nextRecord 1))
    (v := ([⟨1, 1⟩, ⟨1, 1⟩], some ⟨1, ⟨1, 1⟩, []⟩)) (by decide +kernel)
  obtain ⟨hlog, hrec⟩ := Prod.mk.inj hview
  obtain ⟨hids, hfresh, -⟩ := clientIds_unique (n := 2) (l := 0) (by decide)
  refine ⟨s, hrun, hlog, hids s (hrun.mono fun s e hok => ⟨fun a ha => (hok.1 a ha).1, hok.2⟩), hrec, ?_⟩
  exact hfresh s 1 hrun (by decide) _ hrec (.inl rfl)

/-- One datagram from 127.0.0.1, port 8080: a `P_UDP_CONNECT` and a `P_SEND`. -/
def oneDatagram : List Event :=
  [.socket 5, .recvfrom 5 [31, 144, 127, 0, 0, 1, 0, 0, 0, 0, 0, 0, 0, 0] ⟨1, fun _ => 65⟩,
    .hook 0, .hook 0] ++ submitRuns 0 0 217 (replicaRuns 1 6 0) ++ [.hook 0]

theorem clientIds_datagram :
    ¬ ∀ (n l : Nat) (s : Sys), l < n →
      Reaches (Sys.step l) (fun s e => Lift l (OneLap l) s e ∧ Serial s e) (Sys.booted n l) s →
      IdsOk s.mgr.log := by
  intro hall
  obtain ⟨s, hrun, hview⟩ := exists_reaches_of_execOk (Sys.step 0)
    (fun s e => Lift 0 (OneLap 0) s e ∧ Serial s e) (Sys.booted 2 0) oneDatagram
    (fun s => s.mgr.log.map fun sub => (sub.req.type, sub.req.cltId sub.next,
      connectStamp s.mgr.log sub.src))
    (v := [(.udpConnect, ⟨0, 0⟩, some ⟨1, 1⟩), (.send, ⟨0, 0⟩, some ⟨1, 1⟩)]) (by decide +kernel)
  have hids := hall 2 0 s (by decide) hrun
  -- the payload does not carry the stamp of the connect
  obtain ⟨sub, hsub, hpair⟩ : ∃ sub ∈ s.mgr.log, (sub.req.type, sub.req.cltId sub.next,
      connectStamp s.mgr.log sub.src) = (ReqType.send, (⟨0, 0⟩ : ViewStamp), some ⟨1, 1⟩) :=
    List.mem_map.mp (hview ▸ by decide)
  have hnamed := hids.named sub hsub (congrArg Prod.fst hpair)
  rw [show connectStamp s.mgr.log sub.src = some ⟨1, 1⟩ from congrArg (fun v => v.2.2) hpair,
    show sub.req.cltId sub.next = ⟨0, 0⟩ from congrArg (fun v => v.2.1) hpair] at hnamed
  exact absurd hnamed (by decide)

end RdmaPaxos.EvMgr
