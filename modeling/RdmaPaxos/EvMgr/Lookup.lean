/-
  RdmaPaxos.EvMgr.Lookup
  ──────────────────────
  **LOOKUPS WHOSE RESULT IS USED WITHOUT A TEST.**

  `server_side_on_read` and `mgr_on_check` look the descriptor up in
  `leader_tcp_map` and go on to `&socket_pair->vs`, found or not.  Pairs are made by
  `mgr_on_accept` only, while every socket of the application is read and written
  through the hooks.  With the calls on one descriptor one after the other:

      stage        between                        the map under the descriptor
      opening      accept and `HASH_ADD_INT`      nothing
      stamping p   … and the connect's stamp      p, no stamp yet
      live         … and `close`                  accepted socket: its pair, stamped
                                                  other socket: nothing
      removing p   … and `HASH_DEL`               p
      closed       … and the end of `close`       nothing

  §1  the sockets that were accepted;
  §2  the stages of a descriptor;
  §3  how they are kept;
  §4  the theorem.
-/
import RdmaPaxos.EvMgr.Close
import RdmaPaxos.EvMgr.Serial

namespace RdmaPaxos.EvMgr

open RdmaPaxos.Run

/-! ## §1. Accepted sockets. -/

/-- The whole, and which sockets of the leader's process came out of `accept`. -/
structure Served where
  sys : Sys
  accepted : Nat → Bool

/-- A booted group; no socket was accepted. -/
def Served.booted (n l : Nat) : Served := ⟨.booted n l, fun _ => false⟩

/-- A process that starts again has no sockets. -/
def Served.acceptedAfter (l : Nat) (s : Served) : Event → Nat → Bool
  | .accept _ => Function.update s.accepted s.sys.mgr.opened true
  | .world (.start i _) => if i = l then fun _ => false else s.accepted
  | _ => s.accepted

/-- One event of the whole. -/
def Served.step (l : Nat) (s : Served) (e : Event) : Option Served :=
  (s.sys.step l e).map fun sys => ⟨sys, s.acceptedAfter l e⟩

/-- The hook looks up a pair and will use it unseen. -/
def HookPc.looksUp : HookPc → Bool
  | .find _ | .outputFind _ => true
  | _ => false

/-! ## §2. The stages of a descriptor. -/

/-- Where a descriptor is, from its `accept` to its `close`. -/
inductive Stage where
  | opening
  | stamping (p : Nat)
  | live
  | removing (p : Nat)
  | closed

/-- `accept` has not returned yet. -/
def Stage.isNew : Stage → Bool
  | .opening | .stamping _ => true
  | _ => false

/-- The stage a hook at that point has brought its descriptor to. -/
def HookPc.stage : HookPc → Stage
  | .add => .opening
  | .connect p => .stamping p
  | .closeDel p => .removing p
  | .close _ | .nop | .origClose => .closed
  | .wait _ next => next.stage
  | _ => .live

/-- The pairs under the descriptor of a socket, with the stamp of its connect. -/
def Stage.Holds (accepted : Bool) (map : List Nat) (pairs : List ViewStamp)
    (stamp : Option ViewStamp) : Stage → Prop
  | .opening => accepted = true ∧ map = [] ∧ stamp = none
  | .stamping p => accepted = true ∧ map = [p] ∧ p < pairs.length ∧ stamp = none
  | .live => if accepted then ∃ p vs, map = [p] ∧ pairs[p]? = some vs ∧ stamp = some vs
      else map = []
  | .removing p => map = [p]
  | .closed => map = []

/-- A live descriptor: of an accepted socket, or of another. -/
theorem Stage.Holds.of_live {accepted : Bool} {map : List Nat} {pairs : List ViewStamp}
    {stamp : Option ViewStamp} (h : Stage.live.Holds accepted map pairs stamp) :
    (accepted = true ∧ ∃ p vs, map = [p] ∧ pairs[p]? = some vs ∧ stamp = some vs)
      ∨ accepted = false ∧ map = [] := by
  cases accepted with
  | true => exact .inl ⟨rfl, h⟩
  | false => exact .inr ⟨rfl, h⟩

/-- Only the pairs under the descriptor matter. -/
theorem Stage.Holds.congr {accepted : Bool} {map : List Nat} {pairs pairs' : List ViewStamp}
    {stamp : Option ViewStamp} {stage : Stage} (h : stage.Holds accepted map pairs stamp)
    (hpairs : ∀ p ∈ map, pairs'[p]? = pairs[p]?) : stage.Holds accepted map pairs' stamp := by
  cases stage with
  | opening | removing p | closed => exact h
  | stamping p =>
      obtain ⟨hacc, hmap, hlt, hstamp⟩ := h
      have hp := hpairs p (by rw [hmap]; exact List.mem_singleton.2 rfl)
      rw [List.getElem?_eq_getElem hlt] at hp
      exact ⟨hacc, hmap, (List.getElem?_eq_some_iff.mp hp).1, hstamp⟩
  | live =>
      cases accepted with
      | false => exact h
      | true =>
          obtain ⟨p, vs, hmap, hvs, hstamp⟩ := h
          exact ⟨p, vs, hmap, (hpairs p (by rw [hmap]; exact List.mem_singleton.2 rfl)).trans hvs, hstamp⟩

/-- A hook of `src` at `pc`, on descriptor `fd` of socket `c`. -/
def StageAt (m : Mgr) (acc : Nat → Bool) (fd c : Nat) (src : Source) (pc : HookPc) : Prop :=
  (pc.stage.isNew = true → src = .conn c)
    ∧ pc.stage.Holds (acc c) (m.tcpMap fd) m.pairs (stampIn m.log c)

/-- A descriptor without a hook. -/
def LiveAt (m : Mgr) (acc : Nat → Bool) (fd c : Nat) : Prop :=
  Stage.live.Holds (acc c) (m.tcpMap fd) m.pairs (stampIn m.log c)

/-- Every descriptor is at the stage of its hook, or live without one. -/
structure LookupInv (m : Mgr) (acc : Nat → Bool) : Prop where
  tables : Tables m
  unused : ∀ c, m.opened ≤ c → acc c = false ∧ stampIn m.log c = none
  hooks : OnePerFd m (StageAt m acc) (LiveAt m acc)

theorem LookupInv.new : LookupInv Mgr.new fun _ => false where
  tables :=
    { free := fun _ _ => rfl
      inj := fun _ _ _ h => by cases h
      old := fun _ _ h => by cases h
      bound := fun _ _ h => by cases h
      apart := fun _ _ _ h => by cases h }
  unused := fun _ _ => ⟨rfl, rfl⟩
  hooks :=
    { one := fun _ _ _ _ h => by cases h
      active := fun _ h => by cases h
      idle := fun _ _ h => by cases h }

/-! ## §3. How they are kept. -/

/-- `m'` differs from `m` in descriptor `fd` and socket `c` at most. -/
structure SockFrame (m m' : Mgr) (acc acc' : Nat → Bool) (fd c : Nat) : Prop
    extends Beside m m' fd where
  sock : ∀ d, d ≠ c → stampIn m'.log d = stampIn m.log d ∧ acc' d = acc d

section Kept
variable {m m' : Mgr} {acc acc' : Nat → Bool} {fd c h : Nat} {k : Hook} {pc : HookPc} {src : Source}

theorem SockFrame.holds {x d : Nat} {stage : Stage} (hb : SockFrame m m' acc acc' fd c)
    (hx : x ≠ fd) (hd : d ≠ c) (hs : stage.Holds (acc d) (m.tcpMap x) m.pairs (stampIn m.log d)) :
    stage.Holds (acc' d) (m'.tcpMap x) m'.pairs (stampIn m'.log d) := by
  obtain ⟨hstamp, hacc⟩ := hb.sock d hd
  rw [hb.tcpMap x hx, hstamp, hacc]
  exact hs.congr fun p hp => hb.pairs x p hx hp

/-- **A hook moves on.** -/
theorem LookupInv.move (hm : LookupInv m acc) (m' : Mgr) (hk : m.hooks[h]? = some k)
    (hact : k.pc.isDone = false) (hfd : m.fds k.fd = some c) (hb : SockFrame m m' acc acc k.fd c)
    (htables : Tables m') (hopened : m'.opened = m.opened) (calls : List Nat)
    (hown : (m'.fds k.fd = some c ∧ StageAt m' acc k.fd c k.src pc)
      ∨ m'.fds k.fd = none ∧ pc.isDone = true) :
    LookupInv { m' with hooks := m'.hooks.set h { k with calls := calls, pc := pc } } acc := by
  have hc : ∀ x d, x ≠ k.fd → m.fds x = some d → d ≠ c := fun x d hx hd heq =>
    hx (hm.tables.inj x k.fd c (by rw [hd, heq]) hfd)
  refine ⟨htables.congr rfl rfl rfl rfl, fun d hd => ?_,
    hm.hooks.move hk hact hb.hooks hb.fds ?_ ?_ calls ?_⟩
  · have hd' : m.opened ≤ d := hopened ▸ hd
    have hdc : d ≠ c := (Nat.lt_of_lt_of_le (hm.tables.old k.fd c hfd) hd').ne'
    exact ⟨(hm.unused d hd').1, (hb.sock d hdc).1.trans (hm.unused d hd').2⟩
  · intro x d hx hd src pc' hat
    exact ⟨hat.1, hb.holds hx (hc x d hx hd) hat.2⟩
  · intro x d hx hd hlive
    exact hb.holds hx (hc x d hx hd) hlive
  · rcases hown with ⟨hsome, hat⟩ | hnone
    · refine .inl ⟨c, hsome, hat, fun hdone => ?_⟩
      obtain rfl : pc = .done := by
        cases pc <;> first | rfl | cases hdone
      exact hat.2
    · exact .inr hnone

/-- `accept`. -/
theorem LookupInv.accept (hm : LookupInv m acc)
    (hfree : ∀ k ∈ m.hooks, k.fd = fd → k.pc.isDone = true) (hopen : m.openSock fd = some m') :
    LookupInv (m'.enter fd (.conn m.opened) .add) (Function.update acc m.opened true) := by
  have hacc : ∀ d, d ≠ m.opened → Function.update acc m.opened true d = acc d :=
    fun d hd => Function.update_of_ne hd ..
  have hstamp := (hm.unused m.opened (Nat.le_refl _)).2
  have ht := hm.tables.openSock hopen
  obtain ⟨hnone, rfl⟩ := openSock_eq hopen
  have hb : SockFrame m
      { m with fds := Function.update m.fds fd (some m.opened), opened := m.opened + 1 }
      acc (Function.update acc m.opened true) fd m.opened :=
    ⟨.setFd .., fun d hd => ⟨rfl, hacc d hd⟩⟩
  -- sockets are numbered as they are opened, so this one is in use nowhere
  have hc : ∀ x d, m.fds x = some d → d ≠ m.opened := fun x d hd => (hm.tables.old x d hd).ne
  refine ⟨ht.congr rfl rfl rfl rfl, fun d hd => ?_,
    hm.hooks.enter hfree hb.hooks hb.fds ?_ ?_ (Function.update_self ..) ⟨fun _ => rfl, ?_⟩ rfl⟩
  · have hgt : m.opened < d := hd
    rw [hacc d hgt.ne']
    exact hm.unused d hgt.le
  · intro x d hx hd src pc' hat
    exact ⟨hat.1, hb.holds hx (hc x d hd) hat.2⟩
  · intro x d hx hd hlive
    exact hb.holds hx (hc x d hd) hlive
  · exact ⟨Function.update_self .., hm.tables.free fd hnone, hstamp⟩

/-- The application opens a socket of its own. -/
theorem LookupInv.socket (hm : LookupInv m acc)
    (hfree : ∀ k ∈ m.hooks, k.fd = fd → k.pc.isDone = true) (hopen : m.openSock fd = some m') :
    LookupInv m' acc := by
  have hown := (hm.unused m.opened (Nat.le_refl _)).1
  have ht := hm.tables.openSock hopen
  obtain ⟨hnone, rfl⟩ := openSock_eq hopen
  refine ⟨ht, fun d hd => hm.unused d (Nat.le_of_succ_le hd), hm.hooks.one, fun k hk hp => ?_,
    fun x d hd hdone => ?_⟩
  · have hne : k.fd ≠ fd := fun heq => by
      rw [hfree k hk heq] at hp
      cases hp
    obtain ⟨d, hd, hat⟩ := hm.hooks.active k hk hp
    exact ⟨d, (Function.update_of_ne hne ..).trans hd, hat⟩
  · rcases update_get hd with ⟨rfl, hv⟩ | ⟨-, hd'⟩
    · obtain rfl := Option.some.inj hv
      unfold LiveAt
      rw [hown]
      exact hm.tables.free x hnone
    · exact hm.hooks.idle x d hd' hdone

/-- A call on an open descriptor, which is live as long as no hook is active on it. -/
theorem LookupInv.call (hm : LookupInv m acc)
    (hfree : ∀ k ∈ m.hooks, k.fd = fd → k.pc.isDone = true) (hfd : m.fds fd = some c)
    (reads : Nat → List (List UInt8)) (closed : Nat → Bool) (hstage : pc.stage = .live)
    (hpc : pc.isDone = false) :
    LookupInv ({ m with reads := reads, closed := closed }.enter fd src pc) acc := by
  have hlive := hm.hooks.idle fd c hfd hfree
  refine ⟨hm.tables.congr rfl rfl rfl rfl, hm.unused,
    hm.hooks.enter hfree rfl (fun _ _ => rfl) (fun _ _ _ _ _ _ hat => hat) (fun _ _ _ _ hl => hl) hfd
      ⟨fun hnew => ?_, ?_⟩ hpc⟩
  · rw [hstage] at hnew
    cases hnew
  · rw [hstage]
    exact hlive

/-- A hook goes on and changes at most the output manager. -/
theorem LookupInv.goto (hm : LookupInv m acc) (hk : m.hooks[h]? = some k)
    (hact : k.pc.isDone = false) (output : Output.OutputMgr)
    (hstage : ∀ c, StageAt m acc k.fd c k.src k.pc → StageAt m acc k.fd c k.src pc) :
    LookupInv ({ m with output := output }.goto h k pc) acc := by
  obtain ⟨c, hfd, hat⟩ := hm.hooks.active k (List.mem_of_getElem? hk) hact
  exact hm.move { m with output := output } hk hact hfd
    ⟨.of_same rfl rfl rfl rfl, fun _ _ => ⟨rfl, rfl⟩⟩ (hm.tables.congr rfl rfl rfl rfl) rfl k.calls
    (.inl ⟨hfd, hstage c hat⟩)

/-- `HASH_ADD_INT`. -/
theorem LookupInv.add (hm : LookupInv m acc) (hk : m.hooks[h]? = some k) (hpc : k.pc = .add) :
    LookupInv ((m.addTcp k.fd).goto h k (.connect m.pairs.length)) acc := by
  have hact : k.pc.isDone = false := by rw [hpc]; rfl
  obtain ⟨c, hfd, hsrc, hholds⟩ := hm.hooks.active k (List.mem_of_getElem? hk) hact
  rw [hpc] at hsrc hholds
  obtain ⟨hacc, hnil, hstamp⟩ := hholds
  have hself : (m.addTcp k.fd).tcpMap k.fd = [m.pairs.length] := by
    show Function.update m.tcpMap k.fd _ k.fd = _
    rw [Function.update_self, hnil]
  refine hm.move (m.addTcp k.fd) hk hact hfd ?_ (hm.tables.addTcp hfd) rfl k.calls
    (.inl ⟨hfd, hsrc, hacc, hself, ?_, hstamp⟩)
  · exact ⟨hm.tables.beside_addTcp k.fd, fun _ _ => ⟨rfl, rfl⟩⟩
  · show m.pairs.length < (m.pairs ++ [_]).length
    rw [List.length_append]
    exact Nat.lt_succ_self _

/-- A pair for a UDP peer. -/
theorem LookupInv.addUdp {key : List UInt8} (hm : LookupInv m acc) (hk : m.hooks[h]? = some k)
    (hact : k.pc.isDone = false) (hlive : k.pc.stage = .live) (hlive' : pc.stage = .live) :
    LookupInv ((m.addUdp key).goto h k pc) acc := by
  obtain ⟨c, hfd, hsrc, hholds⟩ := hm.hooks.active k (List.mem_of_getElem? hk) hact
  have hkeep : ∀ x p, p ∈ m.tcpMap x → (m.pairs ++ [⟨0, 0⟩])[p]? = m.pairs[p]? :=
    fun x p hp => List.getElem?_append_left (hm.tables.bound x p hp)
  have ht : Tables { m with pairs := m.pairs ++ [⟨0, 0⟩], log := m.log } :=
    hm.tables.setPairs (by rw [List.length_append]; exact Nat.le_add_right _ _) m.log
  refine hm.move (m.addUdp key) hk hact hfd ?_ (ht.congr rfl rfl rfl rfl) rfl k.calls
    (.inl ⟨hfd, fun hnew => ?_, ?_⟩)
  · exact ⟨⟨rfl, fun _ _ => rfl, fun _ _ => rfl, fun x p _ hp => hkeep x p hp⟩, fun _ _ => ⟨rfl, rfl⟩⟩
  · rw [hlive'] at hnew
    cases hnew
  · rw [hlive] at hholds
    rw [hlive']
    exact hholds.congr fun p hp => hkeep k.fd p hp

/-- `HASH_DEL`. -/
theorem LookupInv.closeDel {p : Nat} (hm : LookupInv m acc) (hk : m.hooks[h]? = some k)
    (hpc : k.pc = .closeDel p) :
    LookupInv ({ m with
      tcpMap := Function.update m.tcpMap k.fd ((m.tcpMap k.fd).erase p) }.goto h k
        (.close (m.vs p))) acc := by
  have hact : k.pc.isDone = false := by rw [hpc]; rfl
  obtain ⟨c, hfd, -, hholds⟩ := hm.hooks.active k (List.mem_of_getElem? hk) hact
  rw [hpc] at hholds
  have hmap : m.tcpMap k.fd = [p] := hholds
  refine hm.move { m with tcpMap := _ } hk hact hfd ?_ (hm.tables.erase k.fd p) rfl k.calls
    (.inl ⟨hfd, fun hnew => (by cases hnew), ?_⟩)
  · exact ⟨.erase m k.fd p, fun _ _ => ⟨rfl, rfl⟩⟩
  · show Function.update m.tcpMap k.fd ((m.tcpMap k.fd).erase p) k.fd = []
    rw [Function.update_self, hmap, List.erase_cons_head]

/-- The descriptor is closed. -/
theorem LookupInv.origClose (hm : LookupInv m acc) (hk : m.hooks[h]? = some k)
    (hpc : k.pc = .origClose) :
    LookupInv ({ m with fds := Function.update m.fds k.fd none }.goto h k .done) acc := by
  have hact : k.pc.isDone = false := by rw [hpc]; rfl
  obtain ⟨c, hfd, -, hholds⟩ := hm.hooks.active k (List.mem_of_getElem? hk) hact
  rw [hpc] at hholds
  refine hm.move { m with fds := _ } hk hact hfd ?_ (hm.tables.origClose hholds) rfl k.calls
    (.inr ⟨Function.update_self .., rfl⟩)
  exact ⟨.setFd m k.fd none m.opened, fun _ _ => ⟨rfl, rfl⟩⟩

/-- `rsm_op` of a `P_TCP_CONNECT`: the pair gets the stamp of its connection. -/
theorem LookupInv.connect {p : Nat} (hm : LookupInv m acc) (hk : m.hooks[h]? = some k)
    (hpc : k.pc = .connect p) (q : Request) (hq : q.type = .tcpConnect) (id : Nat)
    (next : ViewStamp) : LookupInv (m.rsmOp h k q id next) acc := by
  have hact : k.pc.isDone = false := by rw [hpc]; rfl
  obtain ⟨c, hfd, hsrc, hholds⟩ := hm.hooks.active k (List.mem_of_getElem? hk) hact
  rw [hpc] at hsrc hholds
  obtain ⟨hacc, hmap, hlt, hstamp⟩ := hholds
  have hconn : k.src = .conn c := hsrc rfl
  unfold Mgr.rsmOp
  rw [hpc]
  refine hm.move { m with pairs := m.pairs.set p next, log := m.log ++ [⟨k.src, q, next⟩] } hk hact hfd
    ?_ (hm.tables.setPairs (by rw [List.length_set]) _) rfl (k.calls ++ [id]) (.inl ⟨hfd, ?_, ?_⟩)
  · refine ⟨hm.tables.beside_pairs _ fun p' hp' => ?_, fun d hd => ⟨?_, rfl⟩⟩
    · -- no other descriptor has this pair
      exact List.getElem?_set_ne fun heq => hp' (by rw [hmap, heq]; exact List.mem_singleton.2 rfl)
    · refine stampIn_append_ne fun hsub => hd ?_
      have heq : Source.conn c = .conn d := hconn.symm.trans hsub.1
      cases heq
      rfl
  · exact fun hnew => by cases hnew
  · show Stage.live.Holds _ _ _ _
    unfold Stage.Holds
    rw [hacc]
    exact ⟨p, next, hmap, List.getElem?_set_self hlt, stampIn_connect hstamp hconn hq⟩

/-- Any other submission. -/
theorem LookupInv.submit (hm : LookupInv m acc) (hk : m.hooks[h]? = some k)
    (hact : k.pc.isDone = false) (hpc : ∀ p, k.pc ≠ .connect p) (q : Request)
    (hq : q.type ≠ .tcpConnect) (hnew : k.pc.stage.isNew = false)
    (hstage : k.pc.returnsTo.stage = k.pc.stage) (id : Nat) (next : ViewStamp) :
    LookupInv (m.rsmOp h k q id next) acc := by
  obtain ⟨c, hfd, -, hholds⟩ := hm.hooks.active k (List.mem_of_getElem? hk) hact
  have hstamp : ∀ d, stampIn (m.log ++ [⟨k.src, q, next⟩]) d = stampIn m.log d :=
    fun d => stampIn_append_ne fun hsub => hq hsub.2
  unfold Mgr.rsmOp
  split
  next p heq => exact absurd heq (hpc p)
  next =>
    refine hm.move { m with log := m.log ++ [⟨k.src, q, next⟩] } hk hact hfd ?_
      (hm.tables.setPairs (Nat.le_refl _) _) rfl (k.calls ++ [id]) (.inl ⟨hfd, fun hopen => ?_, ?_⟩)
    · exact ⟨.of_same rfl rfl rfl rfl, fun d _ => ⟨hstamp d, rfl⟩⟩
    · have hopen' : k.pc.returnsTo.stage.isNew = true := hopen
      rw [hstage, hnew] at hopen'
      cases hopen'
    · show k.pc.returnsTo.stage.Holds _ _ _ (stampIn (m.log ++ [⟨k.src, q, next⟩]) c)
      rw [hstage, hstamp]
      exact hholds

/-- **A hook enters `rsm_op`.** -/
theorem LookupInv.rsmOp {q : Request} (hm : LookupInv m acc) (hk : m.hooks[h]? = some k)
    (hq : m.request k.pc = some q) (id : Nat) (next : ViewStamp) :
    LookupInv (m.rsmOp h k q id next) acc := by
  obtain ⟨fd, src, calls, pc⟩ := k
  cases pc with
  | connect p =>
      cases hq
      exact hm.connect hk rfl _ rfl id next
  | send buf p | udpConnect p buf | output index p | close vs | nop =>
      cases hq
      exact hm.submit hk rfl (fun _ heq => by cases heq) _ (fun heq => by cases heq) rfl rfl id next
  | _ => cases hq

/-- **A hook goes on without submitting.** -/
theorem LookupInv.localStep {returned : Nat → Bool} (hm : LookupInv m acc)
    (hk : m.hooks[h]? = some k) (hstep : LocalStep m returned h k m') : LookupInv m' acc := by
  obtain ⟨fd, src, calls, pc⟩ := k
  cases hstep with
  | add hpc => exact hm.add hk hpc
  | closeDel hpc _ => exact hm.closeDel hk hpc
  | origClose hpc => exact hm.origClose hk hpc
  | udpAdd hpc =>
      obtain rfl : pc = _ := hpc
      exact hm.addUdp hk rfl rfl rfl
  | find hpc | udpNew hpc | udpFind hpc | outputFind hpc =>
      obtain rfl : pc = _ := hpc
      exact hm.goto hk rfl m.output fun c hat => hat
  | stored hpc | proposed hpc | delOutput hpc =>
      obtain rfl : pc = _ := hpc
      exact hm.goto hk rfl _ fun c hat => hat
  | unmapped hpc hnil =>
      obtain rfl : pc = _ := hpc
      exact hm.goto hk rfl m.output fun c hat => ⟨fun hnew => (by cases hnew), hnil⟩
  | @closeFind p ps hpc hcons =>
      obtain rfl : pc = _ := hpc
      refine hm.goto hk rfl m.output fun c hat => ⟨fun hnew => (by cases hnew), ?_⟩
      -- of the live sockets, those that were accepted have a pair, and only one
      have hcons' : m.tcpMap fd = p :: ps := hcons
      rcases Stage.Holds.of_live hat.2 with ⟨-, p', vs, hmap, -⟩ | ⟨-, hmap⟩
      · have hmap' : m.tcpMap fd = [p'] := hmap
        rw [hcons'] at hmap'
        cases hmap'
        exact hcons
      · have hmap' : m.tcpMap fd = [] := hmap
        rw [hcons'] at hmap'
        cases hmap'
  | returns hpc _ =>
      obtain rfl : pc = _ := hpc
      exact hm.goto hk rfl m.output fun c hat => hat

end Kept

/-! ## §4. The theorem. -/

section Run
variable {l n : Nat} {s s' : Served} {e : Event}

/-- **The step lemma.** -/
theorem LookupInv.preserved (hm : LookupInv s.sys.mgr s.accepted) (hserial : Serial s.sys e)
    (hstep : s.step l e = some s') : LookupInv s'.sys.mgr s'.accepted := by
  obtain ⟨sys, hsys, rfl⟩ := Option.map_eq_some_iff.mp hstep
  have hmgr := mgrStep_cases (Sys.stepped hsys).mgr
  dsimp only
  generalize sys.mgr = m' at hmgr ⊢
  cases hmgr with
  | restart =>
      simp only [Served.acceptedAfter, if_true]
      exact .new
  | start hi =>
      simp only [Served.acceptedAfter, if_neg hi]
      exact hm
  | @world a hext hstart =>
      cases a with
      | start i modeS => exact absurd rfl (hstart i modeS)
      | _ => exact hm
  | replica | replicaAccept | replicaClose => exact hm
  | socket hopen => exact hm.socket (hserial _ rfl) hopen
  | accept hopen => exact hm.accept (hserial _ rfl) hopen
  | read hfd _ => exact hm.call (hserial _ rfl) hfd _ s.sys.mgr.closed rfl rfl
  | recvfrom hfd => exact hm.call (hserial _ rfl) hfd s.sys.mgr.reads s.sys.mgr.closed rfl rfl
  | write hfd => exact hm.call (hserial _ rfl) hfd s.sys.mgr.reads s.sys.mgr.closed rfl rfl
  | close hfd => exact hm.call (hserial _ rfl) hfd s.sys.mgr.reads _ rfl rfl
  | submit hk hq => exact hm.rsmOp hk hq _ _
  | hook hk _ hlocal => exact hm.localStep hk hlocal

end Run

/-- **Lookups.**  The application may accept, open sockets of its own, and read, write
and close any of them, UDP sockets included, in any order, with the calls on one
descriptor one after the other.  A lookup of `server_side_on_read` or `mgr_on_check`
finds a pair exactly if the socket that now uses the descriptor was accepted, and a
pair it finds carries the stamp of that connection. -/
theorem lookup_finds_iff {l n : Nat} {s : Served}
    (h : Reaches (Served.step l) (fun s e => Serial s.sys e) (.booted n l) s) {k : Hook}
    (hk : k ∈ s.sys.mgr.hooks) (hlook : k.pc.looksUp = true) :
    ∃ c, s.sys.mgr.fds k.fd = some c ∧ (s.sys.mgr.tcpMap k.fd ≠ [] ↔ s.accepted c = true)
      ∧ ∀ p ps, s.sys.mgr.tcpMap k.fd = p :: ps →
        stampIn s.sys.mgr.log c = some (s.sys.mgr.vs p) := by
  have hinv : LookupInv s.sys.mgr s.accepted :=
    h.invariant (I := fun s => LookupInv s.sys.mgr s.accepted) .new
      fun _ _ _ hs hserial hstep => hs.preserved hserial hstep
  obtain ⟨fd, src, calls, pc⟩ := k
  have hstage : pc.isDone = false ∧ pc.stage = .live := by
    cases pc with
    | find | outputFind => exact ⟨rfl, rfl⟩
    | _ => cases hlook
  obtain ⟨c, hfd, -, hholds⟩ := hinv.hooks.active _ hk hstage.1
  refine ⟨c, hfd, ?_⟩
  dsimp only at hholds ⊢
  rw [hstage.2] at hholds
  rcases hholds.of_live with ⟨hacc, p, vs, hmap, hvs, hstamp⟩ | ⟨hacc, hmap⟩
  · rw [hacc, hmap]
    refine ⟨⟨fun _ => rfl, fun _ hnil => by cases hnil⟩, fun p' ps hcons => ?_⟩
    cases hcons
    rw [hstamp, Mgr.vs, List.getD_eq_getElem?_getD, hvs]
    rfl
  · rw [hacc, hmap]
    exact ⟨⟨fun hne => absurd rfl hne, fun hfalse => by cases hfalse⟩, fun p ps hcons => by cases hcons⟩

/-- A connection is accepted as descriptor 5, and read from. -/
def acceptThenRead : List Event :=
  [.accept 5, .hook 0] ++ submitRuns 0 0 217 (replicaRuns 1 6 0) ++ [.read 5 ⟨1, fun _ => 65⟩]

theorem lookup_finds_iff_accepted :
    ∃ s, Reaches (Served.step 0) (fun s e => Serial s.sys e) (.booted 2 0) s
      ∧ s.sys.mgr.tcpMap 5 ≠ [] := by
  obtain ⟨s, hs, hv⟩ := exists_reaches_of_execOk (Served.step 0) (fun s e => Serial s.sys e)
    (.booted 2 0) acceptThenRead
    (fun s => (s.sys.mgr.hooks.map fun k => (k.fd, k.pc.looksUp), s.sys.mgr.fds 5, s.accepted 0))
    (v := ([(5, false), (5, true)], some 0, true)) (by decide +kernel)
  obtain ⟨hhooks, hrest⟩ := Prod.mk.inj hv
  obtain ⟨hfds, hacc⟩ := Prod.mk.inj hrest
  obtain ⟨k, hk, hkv⟩ := List.mem_map.mp
    (show (5, true) ∈ s.sys.mgr.hooks.map fun k => (k.fd, k.pc.looksUp) by rw [hhooks]; decide)
  obtain ⟨hfd, hlook⟩ := Prod.mk.inj hkv
  obtain ⟨c, hc, hfinds, -⟩ := lookup_finds_iff hs hk hlook
  rw [hfd] at hc hfinds
  rw [hfds] at hc
  cases hc
  exact ⟨s, hs, hfinds.mpr hacc⟩

/-- A hook is about to look up a descriptor that has no pair. -/
def Served.misses (s : Served) : Bool :=
  s.sys.mgr.hooks.any fun k => k.pc.looksUp && (s.sys.mgr.tcpMap k.fd).isEmpty

/-- A read on a socket the application opened itself finds nothing; so does, on an
accepted one, a read while another thread is inside `close`. -/
theorem lookup_misses :
    (∃ s, Reaches (Served.step 0) (fun s e => Serial s.sys e) (.booted 2 0) s ∧ s.misses = true)
    ∧ ∃ s, Reaches (Served.step 0) (fun _ e => TcpOnly 0 e) (.booted 2 0) s ∧ s.misses = true :=
  ⟨exists_reaches_of_execOk _ _ _ [.socket 5, .read 5 ⟨1, fun _ => 65⟩] Served.misses (by decide +kernel),
    exists_reaches_of_execOk _ _ _
      ([.accept 5, .hook 0] ++ submitRuns 0 0 217 (replicaRuns 1 6 0)
        ++ [.close 5, .hook 1, .hook 1, .hook 1, .read 5 ⟨1, fun _ => 65⟩])
      Served.misses (by decide +kernel)⟩

end RdmaPaxos.EvMgr
