/-
  RdmaPaxos.EvMgr.Proposal
  ────────────────────────
  **OUTPUT PROPOSALS AND THE CONNECTION THEY ARE ABOUT.**

  A follower looks the client of a `P_OUTPUT` entry up when it accepts the entry
  (`get_mapping_fd` in `handle_accept_req`).  What the map holds by then was put
  there by the apply loop, which is one commit point behind, and the descriptor
  it returns belongs to the follower's application, which closes it when it
  likes:

      connect applied?   close applied?   server end open?   get_mapping_fd
      no                 –                –                  null pointer
      yes                yes              –                  null pointer
      yes                no               no                 a stale number
      yes                no               yes                the descriptor

  §1  no UDP request without UDP;
  §2  the server's ends of a follower's connections;
  §3  the theorem, and a server that writes before it reads.
-/
import RdmaPaxos.EvMgr.Close
import RdmaPaxos.EvMgr.Follower

namespace RdmaPaxos.EvMgr

open RdmaPaxos.Run RdmaPaxos.Output

/-! ## §1. TCP only. -/

/-- A point in the hook of `recvfrom`. -/
def HookPc.isUdp : HookPc → Bool
  | .udpFind _ _ | .udpAdd _ _ | .udpConnect _ _ => true
  | .wait _ next => next.isUdp
  | _ => false

/-- No hook is that of a `recvfrom`, and no request is its connect. -/
structure NoUdp (m : Mgr) : Prop where
  hook : ∀ k ∈ m.hooks, k.pc.isUdp = false
  log : ∀ sub ∈ m.log, sub.req.type ≠ .udpConnect

section NoUdp
variable {m m' : Mgr} {h : Nat} {k : Hook} {l : Nat} {s s' : Sys} {e : Event}

theorem NoUdp.new : NoUdp Mgr.new where
  hook _ h := by cases h
  log _ h := by cases h

/-- A hook goes on. -/
theorem NoUdp.set (hm : NoUdp m) {k' : Hook} (hhooks : m'.hooks = m.hooks.set h k')
    (hk' : k'.pc.isUdp = false) (hlog : ∀ sub ∈ m'.log, sub ∈ m.log ∨ sub.req.type ≠ .udpConnect) :
    NoUdp m' := by
  refine ⟨fun k hk => ?_, fun sub hsub => (hlog sub hsub).elim (hm.log sub) id⟩
  rw [hhooks] at hk
  rcases List.mem_or_eq_of_mem_set hk with hold | rfl
  · exact hm.hook k hold
  · exact hk'

/-- A hooked call is made. -/
theorem NoUdp.enter (hm : NoUdp m) (hhooks : m'.hooks = m.hooks) (hlog : m'.log = m.log) {fd : Nat}
    {src : Source} {pc : HookPc} (hpc : pc.isUdp = false) : NoUdp (m'.enter fd src pc) := by
  refine ⟨fun k hk => ?_, fun sub hsub => hm.log sub (hlog ▸ hsub)⟩
  rcases List.mem_append.mp (show k ∈ m'.hooks ++ [_] from hk) with hold | hlast
  · exact hm.hook k (hhooks ▸ hold)
  · obtain rfl := List.mem_singleton.mp hlast
    exact hpc

/-- A hook goes on without submitting. -/
theorem NoUdp.localStep {returned : Nat → Bool} (hm : NoUdp m) (hk : m.hooks[h]? = some k)
    (hstep : LocalStep m returned h k m') : NoUdp m' := by
  have hold := hm.hook k (List.mem_of_getElem? hk)
  have hlog : ∀ sub ∈ m'.log, sub ∈ m.log ∨ sub.req.type ≠ .udpConnect := by
    rw [hstep.log]
    exact fun _ hsub => .inl hsub
  cases hstep with
  | udpNew hpc | udpFind hpc | udpAdd hpc =>
      rw [hpc] at hold
      cases hold
  | returns hpc =>
      rw [hpc] at hold
      exact hm.set rfl hold hlog
  | add | find | stored | proposed | outputFind | delOutput | unmapped | closeFind | closeDel
  | origClose => exact hm.set rfl rfl hlog

/-- A hook submits. -/
theorem NoUdp.submit {q : Request} (hm : NoUdp m) (hk : m.hooks[h]? = some k)
    (hq : m.request k.pc = some q) (id : Nat) (next : ViewStamp) : NoUdp (m.rsmOp h k q id next) := by
  have hold := hm.hook k (List.mem_of_getElem? hk)
  obtain ⟨fd, src, calls, pc⟩ := k
  have htype : q.type ≠ .udpConnect ∧ pc.returnsTo.isUdp = false := by
    cases pc with
    | udpConnect => cases hold
    | connect | send | output | close | nop =>
        cases hq
        exact ⟨nofun, rfl⟩
    | _ => cases hq
  refine hm.set rfl htype.2 fun sub hsub => ?_
  rcases List.mem_append.mp hsub with hmem | hlast
  · exact .inl hmem
  · obtain rfl := List.mem_singleton.mp hlast
    exact .inr htype.1

/-- **The step lemma.** -/
theorem NoUdp.preserved (hm : NoUdp s.mgr) (hstep : Sys.Stepped l s e s') (htcp : TcpOnly l e) :
    NoUdp s'.mgr := by
  have hmgr := mgrStep_cases hstep.mgr
  generalize s'.mgr = m' at hmgr ⊢
  cases hmgr with
  | restart => exact .new
  | start | world | replica | replicaAccept | replicaClose => exact hm
  | socket | recvfrom => exact htcp.elim
  | accept hopen =>
      obtain ⟨-, rfl⟩ := openSock_eq hopen
      refine hm.enter ?_ ?_ ?_ <;> rfl
  | read | write | close => refine hm.enter ?_ ?_ ?_ <;> rfl
  | submit hk hq => exact hm.submit hk hq _ _
  | hook hk _ hlocal => exact hm.localStep hk hlocal

end NoUdp

/-! ## §2. The server's ends. -/

/-- One of the first `k` stamps. -/
def Known (k : Nat) (clt : ViewStamp) : Prop := ∃ t, t < k ∧ clt = stampOf t

theorem Known.mono {k k' : Nat} {clt : ViewStamp} (h : Known k clt) (hle : k ≤ k') : Known k' clt :=
  h.imp fun _ ht => ⟨ht.1.trans_le hle, ht.2⟩

/-- The next stamp is a new one. -/
theorem not_known_next {k : Nat} (hk : k + 1 < 2 ^ 32) : ¬ Known k (stampOf k) := by
  rintro ⟨t, hlt, heq⟩
  have hinj := vstol_stampOf_inj (i := k) (j := t) hk (by omega) (congrArg vstol heq)
  omega

/-- A follower's process that has been given `applied`: at most one server's end is
open for each pair, the one `s_p` says, and the queue holds the connection that the
replica thread waits for. -/
structure ServerInv (applied : List (Nat × Option Buf)) (r : Replica) : Prop where
  pair : ∀ clt pair, r.tcpMap clt = some pair → Known applied.length clt
  sock : ∀ fd clt id, r.fds fd = some ⟨clt, id, true⟩ → Known applied.length clt
  ends : ∀ fd clt id pair, r.fds fd = some ⟨clt, id, true⟩ → r.tcpMap clt = some pair →
    pair.accepted = true ∧ pair.sP = fd
  idle : r.connecting = none → r.backlog = []
  waits : ∀ clt, r.connecting = some clt →
    ∃ (t : Nat) (b : Buf) (pair : ReplicaPair), applied[t]? = some (r.curRec, some b)
    ∧ (Record.decode b).clt = clt ∧ r.tcpMap clt = some pair
    ∧ (pair.accepted = true → r.backlog = [])
    ∧ (pair.accepted = false → ∃ id, r.backlog = [⟨clt, id, true⟩])

section Server
variable {applied : List (Nat × Option Buf)} {r r' : Replica} {fd index : Nat} {clt : ViewStamp}

/-- A process that has just started. -/
theorem ServerInv.new : ServerInv [] .new where
  pair _ _ h := by cases h
  sock _ _ _ h := by cases h
  ends _ _ _ _ h := by cases h
  idle _ := rfl
  waits _ h := by cases h

/-- A turn of the waiting loop. -/
theorem ServerInv.waitAccepted (h : ServerInv applied r) (hconn : r.connecting = some clt)
    (hstep : r.waitAccepted clt = some r') : ServerInv applied r' := by
  obtain ⟨t, b, pair, hb, hclt, hpair, hacc, -⟩ := h.waits clt hconn
  unfold Replica.waitAccepted at hstep
  rw [hpair] at hstep
  dsimp only at hstep
  split at hstep
  next haccepted =>
    cases hstep
    exact ⟨h.pair, h.sock, h.ends, fun _ => hacc haccepted, nofun⟩
  next =>
    cases hstep
    exact h

/-- The application accepts: the connection is that of the record at `cur_rec`. -/
theorem ServerInv.mgrOnAccept (h : ServerInv applied r) {db : Nat → Option Buf}
    (hdb : ∀ (t : Nat) (b b' : Buf), applied[t]? = some (r.curRec, some b) → db r.curRec = some b' →
      (Record.decode b').clt = (Record.decode b).clt) (hstep : r.mgrOnAccept db fd = some r') :
    ServerInv applied r' := by
  unfold Replica.mgrOnAccept at hstep
  split at hstep
  next sock rest b' hqueue hb' =>
    -- the queue is not empty, so the replica thread waits
    cases hconn : r.connecting with
    | none =>
        rw [h.idle hconn] at hqueue
        cases hqueue
    | some clt =>
        obtain ⟨t, b, pair, hb, hclt, hpair, hacc, hnot⟩ := h.waits clt hconn
        rw [hdb t b b' hb hb', hclt, hpair] at hstep
        dsimp only at hstep
        have haccepted : pair.accepted = false := by
          cases ha : pair.accepted with
          | false => rfl
          | true =>
              rw [hacc ha] at hqueue
              cases hqueue
        obtain ⟨id, hback⟩ := hnot haccepted
        rw [hback] at hqueue
        cases hqueue
        split at hstep
        next hfree =>
          cases hstep
          refine ⟨fun c p hp => ?_, fun x c i hx => ?_, fun x c i p hx hp => ?_, fun hnone => ?_,
            fun c hc => ?_⟩
          · rcases update_get hp with ⟨rfl, -⟩ | ⟨-, hold⟩
            · exact h.pair _ pair hpair
            · exact h.pair c p hold
          · rcases update_get hx with ⟨-, hnew⟩ | ⟨-, hold⟩
            · cases hnew
              exact h.pair _ pair hpair
            · exact h.sock x c i hold
          · rcases update_get hx with ⟨rfl, hnew⟩ | ⟨-, hold⟩
            · cases hnew
              rcases update_get hp with ⟨-, hval⟩ | ⟨hne, -⟩
              · cases hval
                exact ⟨rfl, rfl⟩
              · exact absurd rfl hne
            · rcases update_get hp with ⟨rfl, -⟩ | ⟨-, hpold⟩
              · -- no server's end was open for this pair
                have hyes := (h.ends x c i pair hold hpair).1
                rw [haccepted] at hyes
                cases hyes
              · exact h.ends x c i p hold hpold
          · exact rfl
          · obtain rfl : clt = c := Option.some.inj (hconn.symm.trans hc)
            exact ⟨t, b, _, hb, hclt, Function.update_self .., fun _ => rfl, nofun⟩
        next => cases hstep
  next => cases hstep

/-- The application closes a descriptor. -/
theorem ServerInv.close (h : ServerInv applied r) (hstep : r.close fd = some r') :
    ServerInv applied r' := by
  unfold Replica.close at hstep
  split at hstep
  next =>
    split at hstep
    next =>
      cases hstep
      exact ⟨h.pair, fun x c i hx => h.sock x c i (update_none_get hx),
        fun x c i p hx => h.ends x c i p (update_none_get hx), h.idle, h.waits⟩
    next => cases hstep
  next => cases hstep

/-- A pair or a socket of the follower, with one more record applied. -/
theorem ServerInv.pair_append (h : ServerInv applied r) (v : Nat × Option Buf) {pair : ReplicaPair}
    (hpair : r.tcpMap clt = some pair) : Known (applied ++ [v]).length clt :=
  (h.pair clt pair hpair).mono (by rw [List.length_append]; exact Nat.le_add_right _ _)

theorem ServerInv.sock_append (h : ServerInv applied r) (v : Nat × Option Buf) {id : Nat}
    (hsock : r.fds fd = some ⟨clt, id, true⟩) : Known (applied ++ [v]).length clt :=
  (h.sock fd clt id hsock).mono (by rw [List.length_append]; exact Nat.le_add_right _ _)

/-- `do_action_tcp_connect` of a new client. -/
theorem ServerInv.doActionTcpConnect (h : ServerInv applied r) (hconn : r.connecting = none)
    (hshort : applied.length + 1 < 2 ^ 32) {b : Buf}
    (hclt : (Record.decode b).clt = stampOf applied.length) :
    ServerInv (applied ++ [(index, some b)])
      (({ r with curRec := index } : Replica).doActionTcpConnect index (Record.decode b).clt fd) := by
  have hnew := not_known_next hshort
  rw [← hclt] at hnew
  have hnone : r.tcpMap (Record.decode b).clt = none := by
    cases hp : r.tcpMap (Record.decode b).clt with
    | none => rfl
    | some pair => exact absurd (h.pair _ pair hp) hnew
  have hlen : (applied ++ [(index, some b)]).length = applied.length + 1 := List.length_append
  refine ⟨fun c p hp => ?_, fun x c i hx => ?_, fun x c i p hx hp => ?_, nofun, fun c hc => ?_⟩
  · rcases update_get hp with ⟨rfl, -⟩ | ⟨-, hold⟩
    · exact ⟨applied.length, by omega, hclt⟩
    · exact h.pair_append _ hold
  · rcases update_get hx with ⟨-, hval⟩ | ⟨-, hold⟩
    · cases hval
    · exact h.sock_append _ hold
  · -- the new client has no server's end yet
    rcases update_get hx with ⟨-, hval⟩ | ⟨-, hold⟩
    · cases hval
    rcases update_get hp with ⟨rfl, -⟩ | ⟨-, hpold⟩
    · exact absurd (h.sock x _ i hold) hnew
    · exact h.ends x c i p hold hpold
  · obtain rfl : (Record.decode b).clt = c := Option.some.inj hc
    refine ⟨applied.length, b, _, List.getElem?_concat_length, rfl, Function.update_self .., ?_, ?_⟩
    · intro hacc
      rw [show ({ r with curRec := index } : Replica).tcpMap _ = none from hnone] at hacc
      cases hacc
    · intro _
      refine ⟨r.opened, ?_⟩
      show r.backlog ++ [_] = _
      rw [h.idle hconn]
      rfl

/-- `do_action_send` touches no table. -/
theorem ServerInv.doActionSend (h : ServerInv applied r) (hconn : r.connecting = none)
    (v : Nat × Option Buf) (data : List UInt8) :
    ServerInv (applied ++ [v]) (({ r with curRec := index } : Replica).doActionSend index clt data) := by
  have hidle := h.idle hconn
  unfold Replica.doActionSend
  split <;>
    exact ⟨fun _ _ hp => h.pair_append v hp, fun _ _ _ hx => h.sock_append v hx, h.ends,
      fun _ => hidle, fun c hc => by rw [show r.connecting = some c from hc] at hconn; cases hconn⟩

/-- `do_action_close` deletes a pair and closes the client's end. -/
theorem ServerInv.doActionClose (h : ServerInv applied r) (hconn : r.connecting = none)
    (v : Nat × Option Buf) :
    ServerInv (applied ++ [v]) (({ r with curRec := index } : Replica).doActionClose index clt) := by
  have hidle := h.idle hconn
  unfold Replica.doActionClose
  split
  next =>
    exact ⟨fun _ _ hp => h.pair_append v hp, fun _ _ _ hx => h.sock_append v hx, h.ends,
      fun _ => hidle, fun c hc => by rw [show r.connecting = some c from hc] at hconn; cases hconn⟩
  next pair hpair =>
    exact ⟨fun _ _ hp => h.pair_append v (update_none_get hp),
      fun _ _ _ hx => h.sock_append v (update_none_get hx),
      fun x c i p hx hp => h.ends x c i p (update_none_get hx) (update_none_get hp), fun _ => hidle,
      fun c hc => by rw [show r.connecting = some c from hc] at hconn; cases hconn⟩

/-- **One call of `update_state`**, with a record whose client is a new one if it is
a connect. -/
theorem ServerInv.updateState (h : ServerInv applied r) (hconn : r.connecting = none)
    (hshort : applied.length + 1 < 2 ^ 32) {b : Buf}
    (hudp : (Record.decode b).type ≠ ReqType.code .udpConnect)
    (hclt : (Record.decode b).type = ReqType.code .tcpConnect →
      (Record.decode b).clt = stampOf applied.length)
    (hstep : r.updateState index (some b) fd = some r') :
    ServerInv (applied ++ [(index, some b)]) r' := by
  simp only [Replica.updateState] at hstep
  split at hstep
  next hfd =>
    cases hstep
    unfold Replica.dispatch
    split_ifs with h₁ h₂ h₃
    · exact h.doActionTcpConnect hconn hshort (hclt h₁)
    · exact h.doActionSend hconn _ _
    · exact h.doActionClose hconn _
    · exact ⟨fun _ _ hp => h.pair_append _ hp, fun _ _ _ hx => h.sock_append _ hx, h.ends, h.idle,
        fun c hc => by rw [show r.connecting = some c from hc] at hconn; cases hconn⟩
  next => cases hstep

end Server

/-! ## §3. The lookup. -/

/-- What holds throughout the runs with TCP connections only in which no log wraps. -/
structure ProposalInv (l : Nat) (s : Sys) : Prop where
  lap : LapInv Request.Short l s.world
  linked : s.Linked
  noUdp : NoUdp s.mgr
  ok : ∀ f, f ≠ l → (s.replicas f).Ok ((replayed (s.world.nodes f).applied).map Prod.snd)
  server : ∀ f, f ≠ l → ServerInv (s.world.nodes f).applied (s.replicas f)

/-- By the records node `f` has applied, the client is connected. -/
def Sys.Connected (s : Sys) (f : Nat) (clt : ViewStamp) : Prop :=
  connected (actsFor clt ((replayed (s.world.nodes f).applied).map Prod.snd)) = true

/-- The application of node `f` has the server's end of the client's connection open. -/
def Sys.ServerOpen (s : Sys) (f : Nat) (clt : ViewStamp) : Prop :=
  ∃ fd id, (s.replicas f).fds fd = some ⟨clt, id, true⟩

/-- `get_mapping_fd` finds a pair, and the descriptor it returns is the open server's
end of that client's connection. -/
def Sys.OutputFound (s : Sys) (f : Nat) : Prop :=
  ∀ clt, s.outputEntry f = some clt →
    ∃ fd, (s.replicas f).getMappingFd clt = some fd ∧ ∃ id, (s.replicas f).fds fd = some ⟨clt, id, true⟩

section Proposal
variable {n l f : Nat} {s s' : Sys} {e : Event}

theorem ProposalInv.booted (hl : l < n) : ProposalInv l (Sys.booted n l) := by
  have hreplay : ReplayInv Request.Short l (Sys.booted n l) := .booted hl
  refine ⟨hreplay.lap, rfl, .new, fun f hf => (hreplay.follower f hf).ok, fun f _ => ?_⟩
  have happ : ((Sys.booted n l).world.nodes f).applied = [] := booted_applied n l f
  rw [happ]
  exact .new

/-- Every step of the whole keeps it, at every follower. -/
theorem ServerInv.preserved (h : ProposalInv l s) (hf : f ≠ l) (hstep : Sys.Stepped l s e s') :
    ServerInv (s'.world.nodes f).applied (s'.replicas f) := by
  have hserver := h.server f hf
  have hfol : FollowerStep s f (s'.replicas f) (s'.world.nodes f).applied := hstep.follower
  generalize s'.replicas f = r, (s'.world.nodes f).applied = applied at hfol ⊢
  cases hfol with
  | keep => exact hserver
  | start => exact .new
  | wait hconn hwait => exact hserver.waitAccepted hconn hwait
  | close hclose => exact hserver.close hclose
  | accept haccept =>
      refine hserver.mgrOnAccept (fun t b b' hb hb' => ?_) haccept
      -- both are read from the entry of request `t`
      have happ := h.lap.inv.applied f hf
      obtain ⟨q, hq, hread⟩ := happ.record t _ b hb rfl
      have hkey : (s.replicas f).curRec = vstol (stampOf t) := happ.index t _ hb
      rw [hkey] at hb'
      exact (h.lap.inv.reads_stored hq hb').head.clt.trans hread.head.clt.symm
  | @update entry index last fd r hnone hpc hle hupdate =>
      obtain ⟨b, hb⟩ := updateState_stored hupdate
      rw [hb] at hupdate ⊢
      obtain ⟨q, hq, hread⟩ := h.lap.next_record hf hpc hle hb
      have hshort := h.lap.tickets.short
      have hlt := (List.getElem?_eq_some_iff.mp hq).1
      rw [length_requests] at hlt
      rw [← h.linked.requests, List.getElem?_map] at hq
      obtain ⟨sub, hsub, rfl⟩ := Option.map_eq_some_iff.mp hq
      have hudp := h.noUdp.log sub (List.mem_of_getElem? hsub)
      refine hserver.updateState hnone (by omega) ?_ ?_ hupdate <;> rw [hread.head.type]
      · show sub.req.type.code ≠ _
        cases htype : sub.req.type <;> first | exact absurd htype hudp | decide
      · intro htype
        have hconnect : sub.req.type = .tcpConnect := by
          have hcode : sub.req.type.code = 1 := htype
          cases hty : sub.req.type <;> rw [hty] at hcode <;> first | rfl | cases hcode
        rw [hread.head.clt]
        show sub.req.cltId _ = _
        unfold Request.cltId
        rw [hconnect]

/-- **The step lemma.** -/
theorem ProposalInv.preserved (h : ProposalInv l s)
    (hok : Lift l (OneLap l) s e ∧ TcpOnly l e) (hstep : Sys.Stepped l s e s') : ProposalInv l s' := by
  exact ⟨hstep.world_rule h.lap fun a ha hs => h.lap.preserved (hok.1 a ha) (.inl fun _ hq => hq) hs,
    h.linked.preserved hstep hok.2.not_start, h.noUdp.preserved hstep hok.2,
    fun f hf => hstep.follower.ok (h.ok f hf), fun f hf => .preserved h hf hstep⟩

/-- **When an output proposal finds its connection.**  In every state of every run
with TCP connections in which no log wraps, the lookup for a `P_OUTPUT` entry that a
follower is about to accept succeeds, and yields the open server's end of that client's
connection, exactly if the follower has applied the client's connect and not its close,
and its application has not closed the descriptor. -/
theorem outputFound_iff (hl : l < n)
    (h : Reaches (Sys.step l) (fun s e => Lift l (OneLap l) s e ∧ TcpOnly l e) (Sys.booted n l) s)
    (hf : f ≠ l) :
    s.OutputFound f ↔ ∀ clt, s.outputEntry f = some clt → s.Connected f clt ∧ s.ServerOpen f clt := by
  have hinv := h.invariant (I := ProposalInv l) (.booted hl) fun _ _ _ hinv hok hs =>
    hinv.preserved hok (Sys.stepped hs)
  have hpair := (hinv.ok f hf).pair
  refine forall₂_congr fun clt _ => ⟨?_, ?_⟩
  · rintro ⟨fd, hfd, id, hsock⟩
    obtain ⟨pair, hp, -⟩ := Option.map_eq_some_iff.mp hfd
    refine ⟨?_, fd, id, hsock⟩
    unfold Sys.Connected
    rw [← hpair, hp]
    rfl
  · rintro ⟨hconn, fd, id, hsock⟩
    unfold Sys.Connected at hconn
    rw [← hpair] at hconn
    obtain ⟨pair, hp⟩ := Option.isSome_iff_exists.mp hconn
    obtain ⟨-, rfl⟩ := (hinv.server f hf).ends fd clt id pair hsock hp
    exact ⟨pair.sP, Option.map_eq_some_iff.mpr ⟨pair, hp, rfl⟩, id, hsock⟩

end Proposal

/-- The leader's application writes ten blocks, hooks `h`, …, `h + 9`; the last of them
makes a proposal. -/
def tenBlocks (h : Nat) : List Event :=
  (List.range 10).flatMap fun i => [.write 5 (List.replicate 1024 0), .hook (h + i)]

/-- Call `id` of hook `h` and the follower, up to where it is about to accept. -/
def proposal (h id : Nat) : List Event :=
  [.hook h, .hook h] ++ callRuns id 7 ++ [.world (.deliverEntry id 1 225)] ++ replicaRuns 1 3 0

/-- The application reads before it writes. -/
def readThenWrite : List Event :=
  [.accept 5, .hook 0] ++ submitRuns 0 0 217 (replicaRuns 1 6 0)
    ++ [.read 5 ⟨1, fun _ => 65⟩, .hook 1]
    ++ submitRuns 1 1 218 (replicaRuns 1 7 7 ++ [.replicaAccept 1 8] ++ replicaRuns 1 2 0)
    ++ tenBlocks 2 ++ proposal 11 2

/-- A run in which the lookup succeeds. -/
theorem outputFound_iff_readThenWrite :
    ∃ s, Reaches (Sys.step 0) (fun s e => Lift 0 (OneLap 0) s e ∧ TcpOnly 0 e) (Sys.booted 2 0) s
      ∧ s.outputEntry 1 = some ⟨1, 1⟩ ∧ s.OutputFound 1
      ∧ s.Connected 1 ⟨1, 1⟩ ∧ s.ServerOpen 1 ⟨1, 1⟩ := by
  obtain ⟨s, hrun, hview⟩ := exists_reaches_of_execOk (Sys.step 0)
    (fun s e => Lift 0 (OneLap 0) s e ∧ TcpOnly 0 e) (Sys.booted 2 0) readThenWrite
    (fun s => (s.outputEntry 1, (s.replicas 1).getMappingFd ⟨1, 1⟩, (s.replicas 1).fds 8))
    (v := (some ⟨1, 1⟩, some 8, some ⟨⟨1, 1⟩, 0, true⟩)) (by decide +kernel)
  have hentry : s.outputEntry 1 = some ⟨1, 1⟩ := congrArg Prod.fst hview
  have hmap : (s.replicas 1).getMappingFd ⟨1, 1⟩ = some 8 := congrArg (fun v => v.2.1) hview
  have hsock : (s.replicas 1).fds 8 = some ⟨⟨1, 1⟩, 0, true⟩ := congrArg (fun v => v.2.2) hview
  have hfound : s.OutputFound 1 := by
    intro clt hclt
    obtain rfl : (⟨1, 1⟩ : ViewStamp) = clt := Option.some.inj (hentry.symm.trans hclt)
    exact ⟨8, hmap, 0, hsock⟩
  exact ⟨s, hrun, hentry, hfound,
    (outputFound_iff (by decide) hrun (by decide)).mp hfound ⟨1, 1⟩ hentry⟩

/-- The application writes before it reads anything: the proposal is the second
request, and the follower has not applied the connect. -/
def writeFirst : List Event :=
  [.accept 5, .hook 0] ++ submitRuns 0 0 217 (replicaRuns 1 6 0) ++ tenBlocks 1 ++ proposal 10 1

/-- A run in which it does not. -/
theorem outputFound_writeFirst :
    ¬ ∀ (n l f : Nat) (s : Sys), l < n →
      Reaches (Sys.step l) (fun s e => Lift l (OneLap l) s e ∧ TcpOnly l e) (Sys.booted n l) s →
      f ≠ l → s.OutputFound f := by
  intro hall
  obtain ⟨s, hrun, hview⟩ := exists_reaches_of_execOk (Sys.step 0)
    (fun s e => Lift 0 (OneLap 0) s e ∧ TcpOnly 0 e) (Sys.booted 2 0) writeFirst
    (fun s => (s.outputEntry 1, (s.replicas 1).getMappingFd ⟨1, 1⟩))
    (v := (some ⟨1, 1⟩, none)) (by decide +kernel)
  obtain ⟨hentry, hmap⟩ := Prod.mk.inj hview
  obtain ⟨fd, hfd, -⟩ := hall 2 0 1 s (by decide) hrun (by decide) ⟨1, 1⟩ hentry
  rw [hmap] at hfd
  cases hfd

end RdmaPaxos.EvMgr
