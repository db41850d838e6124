/-
  RdmaPaxos.EvMgr.Follower
  ────────────────────────
  **WHAT A FOLLOWER REPLAYS.**

  Every action of `update_state` on a follower is that of a record it has
  applied, the records are those of the leader's first requests, and those are
  what the hooks submitted:

      planned log  ⊇ prefix  replayed applied  =  performed

  The middle equation is the group's (`LapInv`), and holds up to the bytes of the
  payloads where a follower may compute the length of an entry from a part of its
  size.  The last one needs that a payload or a close finds the pair of its client,
  which is where one call at a time on a descriptor (`SerialInv`) comes in: a
  connection's requests start with its connect and end with its close.

  §1  the steps of a follower's process;
  §2  the records applied, and the requests submitted;
  §3  the connection of a request;
  §4  the invariant.
-/
import RdmaPaxos.Consensus.Propagation
import RdmaPaxos.EvMgr.Serial

namespace RdmaPaxos.EvMgr

open RdmaPaxos.Run

/-! ## §1. The steps of a follower. -/

/-- The event manager of node `f`, and the records it has been given, after one
step of the whole. -/
inductive FollowerStep (s : Sys) (f : Nat) : Replica → List (Nat × Option Buf) → Prop where
  | keep : FollowerStep s f (s.replicas f) (s.world.nodes f).applied
  | start : FollowerStep s f .new []
  | wait {clt : ViewStamp} {r : Replica} (hconn : (s.replicas f).connecting = some clt)
      (hwait : (s.replicas f).waitAccepted clt = some r) :
      FollowerStep s f r (s.world.nodes f).applied
  | accept {fd : Nat} {r : Replica} (haccept : (s.replicas f).mgrOnAccept (s.world.db f) fd = some r) :
      FollowerStep s f r (s.world.nodes f).applied
  | close {fd : Nat} {r : Replica} (hclose : (s.replicas f).close fd = some r) :
      FollowerStep s f r (s.world.nodes f).applied
  | update {entry index last fd : Nat} {r : Replica} (hconn : (s.replicas f).connecting = none)
      (hpc : (s.world.nodes f).pc = .apply entry index last) (hle : index ≤ last)
      (hupdate : (s.replicas f).updateState index (s.world.db f index) fd = some r) :
      FollowerStep s f r ((s.world.nodes f).applied ++ [(index, s.world.db f index)])

section Steps
variable {l f : Nat} {s s' : Sys} {e : Event}

/-- Only the replica thread of a node adds to the records it has applied, and only a
start of the node forgets them. -/
theorem applied_kept {w w' : World} {a : Action} (hstep : step w a = some w')
    (hstart : ∀ modeS, a ≠ .start f modeS) (hrep : ∀ stored hash, a ≠ .replica f stored hash) :
    (w'.nodes f).applied = (w.nodes f).applied := by
  cases step_cases hstep with
  | @start i _ =>
      refine setNode_field Node.applied fun heq => ?_
      subst heq
      exact absurd rfl (hstart _)
  | crash | joinReply | connect | destroy | relaunch =>
      exact setNode_field Node.applied fun heq => by subst heq; rfl
  | submit => exact setNode_field (w := w) Node.applied fun heq => by subst heq; rfl
  | call _ _ _ hcall => exact hcall.field Node.applied (fun _ _ => rfl) (fun _ _ => rfl) f
  | @replica i _ _ _ _ hreplica =>
      have hne : f ≠ i := by
        rintro rfl
        exact hrep _ _ rfl
      cases hreplica with
      | leader => rfl
      | _ => exact congrArg Node.applied (setNode_nodes_ne w _ _ hne)
  | deliverEntry | deliverAck =>
      exact setNode_field Node.applied fun heq => by subst heq; rfl

/-- The replica thread waits, hands a record to `update_state`, or leaves the event
manager alone. -/
theorem Sys.replicaStep_cases {fd : Nat} {r : Replica} (h : s.replicaStep f fd = some r) :
    (∃ clt, (s.replicas f).connecting = some clt ∧ (s.replicas f).waitAccepted clt = some r)
      ∨ ((s.replicas f).connecting = none
        ∧ ((∃ entry index last, (s.world.nodes f).pc = .apply entry index last ∧ index ≤ last
            ∧ (s.replicas f).updateState index (s.world.db f index) fd = some r)
          ∨ (r = s.replicas f ∧ ∀ entry index last, (s.world.nodes f).pc = .apply entry index last →
            ¬ index ≤ last))) := by
  unfold Sys.replicaStep at h
  dsimp only at h
  split at h
  next clt hclt => exact .inl ⟨clt, hclt, h⟩
  next hnone =>
    refine .inr ⟨hnone, ?_⟩
    split at h
    next entry index last hpc =>
      split at h
      next hle => exact .inl ⟨entry, index, last, hpc, hle, h⟩
      next hle =>
        cases h
        refine .inr ⟨rfl, fun entry' index' last' hpc' => ?_⟩
        rw [hpc] at hpc'
        cases hpc'
        exact hle
    next hne =>
      refine .inr ⟨?_, fun entry index last hpc => absurd hpc (hne entry index last)⟩
      split at h
      · obtain ⟨_, -, rfl⟩ := Option.map_eq_some_iff.mp h
        rfl
      · cases h
        rfl

/-- A step of the replica thread outside the apply loop. -/
theorem replicaStep_applied {w w' : World} {stored : Bool} {hash : Nat}
    (h : ReplicaStep w f stored hash w') :
    (∃ entry index last, (w.nodes f).pc = .apply entry index last ∧ index ≤ last
        ∧ (w'.nodes f).applied = (w.nodes f).applied ++ [(index, w.db f index)])
      ∨ ((w'.nodes f).applied = (w.nodes f).applied
        ∧ ∀ entry index last, (w.nodes f).pc = .apply entry index last → ¬ index ≤ last) := by
  cases h with
  | @apply _ _ entry index last hpc hle =>
      exact .inl ⟨entry, index, last, hpc, hle, congrArg Node.applied (setNode_nodes_self w f _)⟩
  | leader hpc =>
      exact .inr ⟨rfl, fun _ _ _ h => by rw [hpc] at h; cases h⟩
  | applied hpc hle =>
      refine .inr ⟨setNode_field (w := w) Node.applied fun _ => rfl, fun _ _ _ h => ?_⟩
      rw [hpc] at h
      cases h
      exact hle
  | poll hpc | measure hpc | marker hpc | accept hpc | acceptUnstored hpc | unconnected hpc | ack hpc
  | commit hpc =>
      refine .inr ⟨setNode_field (w := w) Node.applied fun _ => rfl, fun _ _ _ h => ?_⟩
      rw [hpc] at h
      cases h

/-- An event that is none of the node's. -/
theorem Sys.Stepped.follower_keep (h : Sys.Stepped l s e s') (hr : s'.replicas f = s.replicas f)
    (hstart : ∀ modeS, s.action l e ≠ some (.start f modeS))
    (hrep : ∀ stored hash, s.action l e ≠ some (.replica f stored hash)) :
    FollowerStep s f (s'.replicas f) (s'.world.nodes f).applied := by
  have happ : (s'.world.nodes f).applied = (s.world.nodes f).applied :=
    h.world_rule (W := fun w => (w.nodes f).applied = (s.world.nodes f).applied) rfl fun a ha hs =>
      applied_kept hs (fun m heq => hstart m (by rw [ha, heq]))
        fun b k heq => hrep b k (by rw [ha, heq])
  rw [hr, happ]
  exact .keep

/-- An event of some event manager that is no step of the group. -/
theorem Sys.Stepped.follower_local (h : Sys.Stepped l s e s') (hact : s.action l e = none) {i : Nat}
    {r : Replica} (hr : s'.replicas = Function.update s.replicas i r)
    (hstep : i = f → FollowerStep s f r (s.world.nodes f).applied) :
    FollowerStep s f (s'.replicas f) (s'.world.nodes f).applied := by
  rcases eq_or_ne f i with rfl | hne
  · rcases h.world_cases with ⟨-, heq⟩ | ⟨a, ha, -⟩
    · rw [hr, heq, Function.update_self]
      exact hstep rfl
    · rw [hact] at ha
      cases ha
  · refine h.follower_keep (by rw [hr, Function.update_of_ne hne]) (fun modeS ha => ?_)
      fun stored hash ha => ?_ <;>
    · rw [hact] at ha
      cases ha

/-- **What a step of the whole does to a follower.** -/
theorem Sys.Stepped.follower (h : Sys.Stepped l s e s') :
    FollowerStep s f (s'.replicas f) (s'.world.nodes f).applied := by
  have hreplicas := h.replicas
  cases e with
  | world a =>
      have hext := h.mgr
      cases a with
      | start i modeS =>
          have heq : s'.replicas = Function.update s.replicas i .new :=
            (Option.some.inj hreplicas).symm
          rcases eq_or_ne f i with rfl | hne
          · have hw := h.world
            generalize s'.world = w' at hw ⊢
            cases step_cases hw with
            | start =>
                rw [heq, Function.update_self, setNode_nodes_self]
                exact .start
          · refine h.follower_keep (by rw [heq, Function.update_of_ne hne]) (fun m ha => ?_) fun _ _ ha => ?_
            · cases ha
              exact hne rfl
            · cases ha
      | submit | replica => cases hext
      | crash | joinReply | connect | destroy | relaunch | call | deliverEntry | deliverAck =>
          have heq : s'.replicas = s.replicas := (Option.some.inj hreplicas).symm
          exact h.follower_keep (by rw [heq]) (fun _ ha => by cases ha) fun _ _ ha => by cases ha
  | replica i stored hash fd =>
      obtain ⟨r, hrep, heq⟩ := Option.map_eq_some_iff.mp hreplicas
      rcases Sys.replicaStep_cases hrep with ⟨clt, hclt, hwait⟩ | ⟨hnone, hcases⟩
      · refine h.follower_local ?_ heq.symm fun hi => ?_
        · simp only [Sys.action, hclt]
        · subst hi
          exact .wait hclt hwait
      · have hact : s.action l (.replica i stored hash fd) = some (.replica i stored hash) := by
          simp only [Sys.action, hnone]
        rcases eq_or_ne f i with rfl | hne
        · have hw := h.world
          rw [hact] at hw
          generalize s'.world = w' at hw ⊢
          cases step_cases hw with
          | replica _ hstep =>
              rw [← heq, Function.update_self]
              -- the thread and the event manager are at the same point
              rcases hcases with ⟨entry, index, last, hpc, hle, hupdate⟩ | ⟨rfl, hidle⟩ <;>
                rcases replicaStep_applied hstep with ⟨entry', index', last', hpc', hle', happ⟩ | ⟨happ, hidle'⟩
              · rw [hpc] at hpc'
                cases hpc'
                rw [happ]
                exact .update hnone hpc hle hupdate
              · exact absurd hle (hidle' _ _ _ hpc)
              · exact absurd hle' (hidle _ _ _ hpc')
              · rw [happ]
                exact .keep
        · refine h.follower_keep (by rw [← heq, Function.update_of_ne hne]) ?_ fun b k ha => ?_
          · intro modeS ha
            rw [hact] at ha
            cases ha
          · rw [hact] at ha
            cases ha
            exact hne rfl
  | replicaAccept i fd =>
      obtain ⟨r, haccept, heq⟩ := Option.map_eq_some_iff.mp hreplicas
      exact h.follower_local rfl heq.symm fun hi => .accept (by rw [← hi]; exact haccept)
  | replicaClose i fd =>
      obtain ⟨r, hclose, heq⟩ := Option.map_eq_some_iff.mp hreplicas
      exact h.follower_local rfl heq.symm fun hi => .close (by rw [← hi]; exact hclose)
  | hook n =>
      have heq : s'.replicas = s.replicas := (Option.some.inj hreplicas).symm
      refine h.follower_keep (by rw [heq]) (fun modeS ha => ?_) fun stored hash ha => ?_ <;>
      · obtain ⟨q, -, hq⟩ := Option.map_eq_some_iff.mp ha
        cases hq
  | socket | accept | read | recvfrom | write | close =>
      have heq : s'.replicas = s.replicas := (Option.some.inj hreplicas).symm
      exact h.follower_keep (by rw [heq]) (fun _ ha => by cases ha) fun _ _ ha => by cases ha

end Steps

/-! ## §2. Records and requests. -/

/-- For which record and client an action is performed. -/
def Performed.key (p : Performed) : Nat × ViewStamp × Act := (p.index, p.clt, p.act)

/-- The actions of the records applied. -/
def replayed (applied : List (Nat × Option Buf)) : List (Nat × ViewStamp × Act) :=
  applied.filterMap fun v => v.2.bind fun b => (actOf (Record.decode b)).map (Prod.mk v.1)

/-- The actions of the requests submitted, in the order of the requests. -/
def planned (log : List Submission) : List (Nat × ViewStamp × Act) :=
  log.filterMap fun sub => sub.act.map fun a => (vstol sub.next, sub.req.cltId sub.next, a)

/-- An action, but for the bytes it sends. -/
def Act.shape : Act → Act
  | .send _ => .send []
  | a => a

/-- Whether a client is connected does not depend on the bytes it sent. -/
theorem connected_shape (acts : List Act) : connected (acts.map Act.shape) = connected acts := by
  unfold connected
  rw [List.foldl_map]
  congr 1
  funext before a
  cases a <;> rfl

/-- The actions of one client, but for the bytes sent. -/
theorem actsFor_shape (clt : ViewStamp) (xs : List (ViewStamp × Act)) :
    actsFor clt (xs.map (Prod.map id Act.shape)) = (actsFor clt xs).map Act.shape := by
  unfold actsFor
  rw [List.filter_map, List.map_map, List.map_map]
  rfl

/-- A connect has its own shape. -/
theorem Act.shape_connect {a a' : Act} (h : a.shape = a'.shape) : a = .connect ↔ a' = .connect := by
  cases a <;> cases a' <;> simp_all [Act.shape]

/-- Records with one head stand for one action, but for the bytes sent. -/
theorem actOf_sameHead {r r' : Record} (h : r.SameHead r') :
    (actOf r).map (Prod.map id Act.shape) = (actOf r').map (Prod.map id Act.shape) := by
  unfold actOf
  rw [h.type, h.clt]
  split_ifs <;> rfl

/-- Two lists that agree in every place. -/
theorem filterMap_eq_of_get {α β γ : Type*} {g : α → Option γ} {g' : β → Option γ} :
    ∀ {xs : List α} {ys : List β}, xs.length = ys.length →
      (∀ (t : Nat) (x : α) (y : β), xs[t]? = some x → ys[t]? = some y → g x = g' y) →
      xs.filterMap g = ys.filterMap g' := by
  intro xs
  induction xs with
  | nil =>
      intro ys hlen _
      rw [List.length_eq_zero_iff.mp hlen.symm]
      rfl
  | cons x xs ih =>
      intro ys hlen hget
      cases ys with
      | nil => cases hlen
      | cons y ys =>
          have hhead : g x = g' y := hget 0 x y rfl rfl
          have htail := ih (Nat.succ.inj hlen) fun t => hget (t + 1)
          rw [List.filterMap_cons, List.filterMap_cons, hhead, htail]

/-- A record stands for the action of its request. -/
theorem actOf_record (sub : Submission) (hudp : sub.req.type ≠ .udpConnect) :
    actOf (sub.req.record sub.next) = sub.act.map (Prod.mk (sub.req.cltId sub.next)) := by
  obtain ⟨src, ⟨type, data, clt⟩, next⟩ := sub
  cases type with
  | udpConnect => exact absurd rfl hudp
  | tcpConnect | send | close | output | nop => rfl

/-- One more record is applied. -/
theorem replayed_append (applied : List (Nat × Option Buf)) (index : Nat) (b : Buf) :
    replayed (applied ++ [(index, some b)])
      = replayed applied ++ ((actOf (Record.decode b)).map (Prod.mk index)).toList := by
  unfold replayed
  rw [List.filterMap_append]
  cases h : actOf (Record.decode b) <;> simp [h]

/-- What `update_state` performs, if a payload or a close finds its pair. -/
theorem updateState_performed {r r' : Replica} {index fd : Nat} {b : Buf}
    (hstep : r.updateState index (some b) fd = some r')
    (hpair : ∀ clt a, actOf (Record.decode b) = some (clt, a) → a ≠ .connect →
      (r.tcpMap clt).isSome = true) :
    r'.performed.map Performed.key = r.performed.map Performed.key
      ++ ((actOf (Record.decode b)).map (Prod.mk index)).toList := by
  simp only [Replica.updateState] at hstep
  split at hstep
  next hfd =>
    cases hstep
    generalize Record.decode b = rec at hpair ⊢
    unfold Replica.dispatch
    unfold actOf at hpair ⊢
    split_ifs at hpair ⊢ with h₁ h₂ h₃ h₄
    · show (r.performed ++ [_]).map _ = _
      rw [List.map_append]
      rfl
    · show (r.performed ++ [_]).map _ = _
      rw [List.map_append]
      rfl
    · -- without a pair nothing would be performed
      obtain ⟨pair, hsome⟩ := Option.isSome_iff_exists.mp (hpair rec.clt _ rfl fun heq => by cases heq)
      unfold Replica.doActionSend
      simp only [hsome]
      rw [List.map_append]
      rfl
    · obtain ⟨pair, hsome⟩ := Option.isSome_iff_exists.mp (hpair rec.clt _ rfl fun heq => by cases heq)
      unfold Replica.doActionClose
      simp only [hsome]
      rw [List.map_append]
      rfl
    · exact (List.append_nil _).symm
  next => cases hstep

section Quiet
variable {r r' : Replica} {fd : Nat}

theorem waitAccepted_performed {clt : ViewStamp} (h : r.waitAccepted clt = some r') :
    r'.performed = r.performed := by
  unfold Replica.waitAccepted at h
  split at h
  · split at h <;> cases h <;> rfl
  · cases h

theorem mgrOnAccept_performed {db : Nat → Option Buf} (h : r.mgrOnAccept db fd = some r') :
    r'.performed = r.performed := by
  unfold Replica.mgrOnAccept at h
  split at h
  · split at h
    · split at h
      · cases h
        rfl
      · cases h
    · cases h
  · cases h

theorem close_performed (h : r.close fd = some r') : r'.performed = r.performed := by
  unfold Replica.close at h
  split at h
  · split at h
    · cases h
      rfl
    · cases h
  · cases h

end Quiet

/-! ## §3. The connection of a request. -/

/-- The requests have the stamps (1,1), (1,2), …, and those are all different. -/
structure Stamped (log : List Submission) : Prop where
  short : log.length + 1 < 2 ^ 32
  next : ∀ (i : Nat) (sub : Submission), log[i]? = some sub → sub.next = stampOf i

/-- The submissions have the stamps of the calls. -/
theorem Sys.Linked.stamped {s : Sys} (h : s.Linked) (hshort : s.world.calls.length < 2 ^ 32 - 1)
    (hnext : ∀ id c, s.world.calls[id]? = some c → c.next = stampOf id) : Stamped s.mgr.log := by
  refine ⟨?_, fun i sub hsub => ?_⟩
  · rw [h.length]
    omega
  · obtain ⟨c, hc, -, heq⟩ := h.call hsub
    rw [← heq]
    exact hnext i c hc

section Log
variable {m : Mgr} {log : List Submission} {c c' k : Nat} {v : ViewStamp}

/-- A connection's stamp is that of its connect. -/
theorem stampIn_mem (h : stampIn log c = some v) : ∃ sub ∈ log, sub.src = .conn c ∧ sub.next = v := by
  unfold stampIn at h
  obtain ⟨sub, hsub, rfl⟩ := Option.map_eq_some_iff.mp h
  have hboth := List.find?_some hsub
  exact ⟨sub, List.mem_of_find?_eq_some hsub, (of_decide_eq_true hboth).1, rfl⟩

/-- **Two connections have two stamps.** -/
theorem Stamped.stampIn_inj (h : Stamped log) (hc : stampIn log c = some v)
    (hc' : stampIn log c' = some v) : c = c' := by
  obtain ⟨sub, hsub, hsrc, hv⟩ := stampIn_mem hc
  obtain ⟨sub', hsub', hsrc', hv'⟩ := stampIn_mem hc'
  obtain ⟨i, hi⟩ := List.mem_iff_getElem?.mp hsub
  obtain ⟨j, hj⟩ := List.mem_iff_getElem?.mp hsub'
  have hilt := (List.getElem?_eq_some_iff.mp hi).1
  have hjlt := (List.getElem?_eq_some_iff.mp hj).1
  have hshort := h.short
  have hstamp : stampOf i = stampOf j := by
    rw [← h.next i sub hi, ← h.next j sub' hj, hv, hv']
  obtain rfl := vstol_stampOf_inj (by omega) (by omega) (congrArg vstol hstamp)
  obtain rfl : sub = sub' := Option.some.inj (hi.symm.trans hj)
  exact Source.conn.inj (hsrc.symm.trans hsrc')

/-- The requests that name a client are those of its connection. -/
theorem actsFor_planned (hm : SerialInv m) (hst : Stamped m.log) (hc : stampIn m.log c = some v) :
    ∀ xs : List Submission, (∀ sub ∈ xs, sub ∈ m.log) →
      actsFor v ((planned xs).map Prod.snd) = sentBy xs c := by
  intro xs
  induction xs with
  | nil => exact fun _ => rfl
  | cons sub xs ih =>
      intro hsub
      have htail := ih fun sub' h' => hsub sub' (List.mem_cons_of_mem _ h')
      unfold planned sentBy at htail ⊢
      obtain ⟨d, hsrc, -, hd⟩ := hm.ids sub (hsub sub List.mem_cons_self)
      cases ha : sub.act with
      | none =>
          rw [List.filterMap_cons_none (by rw [ha]; rfl),
            List.filterMap_cons_none (by rw [ha, ite_self])]
          exact htail
      | some a =>
          have hnop := Submission.act_ne_nop ha
          rw [List.filterMap_cons_some (by rw [ha]; rfl), List.map_cons, ← List.singleton_append,
            actsFor_append, actsFor_single, htail]
          -- the request carries the stamp of its own connection, and stamps differ
          rcases eq_or_ne d c with rfl | hne
          · have hv : sub.req.cltId sub.next = v := Option.some.inj ((hd hnop).symm.trans hc)
            rw [if_pos hv, List.filterMap_cons_some (by rw [if_pos hsrc, ha])]
            rfl
          · have hv : sub.req.cltId sub.next ≠ v := fun heq =>
              hne (hst.stampIn_inj (by rw [hd hnop, heq]) hc)
            have hsrc' : sub.src ≠ .conn c := fun heq =>
              hne (Source.conn.inj (hsrc.symm.trans heq))
            rw [if_neg hv, List.filterMap_cons_none (by rw [if_neg hsrc'])]
            rfl

/-- One more request of a connection. -/
theorem sentBy_take {sub : Submission} (hk : log[k]? = some sub) (hsrc : sub.src = .conn c) :
    sentBy (log.take (k + 1)) c = sentBy (log.take k) c ++ sub.act.toList := by
  rw [List.take_add_one, hk, Option.toList_some, sentBy_append hsrc]

/-- What a connection had sent by then is a beginning of what it has sent. -/
theorem sentBy_take_initial (k : Nat) : sentBy (log.take k) c <+: sentBy log c := by
  unfold sentBy
  exact (List.take_prefix k log).filterMap _

/-- In the script of a connection, whatever comes after the connect finds the
connection open. -/
theorem connected_of_script {acts : List Act} {a : Act} (ds : List (List UInt8))
    (h : acts ++ [a] <+: .connect :: ds.map .send ++ [.close]) :
    connected acts = true ↔ a ≠ .connect := by
  cases acts with
  | nil =>
      obtain ⟨rest, hrest⟩ := h
      cases hrest
      exact ⟨nofun, fun hne => absurd rfl hne⟩
  | cons x xs =>
      rw [List.cons_append, List.cons_append, List.cons_prefix_cons] at h
      obtain ⟨rfl, htail⟩ := h
      have hlen : xs.length ≤ (ds.map Act.send).length := by
        have := htail.length_le
        rw [List.length_append, List.length_append] at this
        exact Nat.le_of_succ_le_succ this
      have hsends : xs <+: ds.map .send :=
        List.prefix_of_prefix_length_le ((List.prefix_append _ _).trans htail)
          (List.prefix_append _ _) hlen
      -- payloads keep it open
      have hopen : ∀ ys : List Act, (∀ y ∈ ys, ∃ d, y = .send d) →
          ys.foldl Act.connects true = true := by
        intro ys
        induction ys with
        | nil => exact fun _ => rfl
        | cons y ys ih =>
            intro hys
            obtain ⟨d, rfl⟩ := hys y List.mem_cons_self
            exact ih fun z hz => hys z (List.mem_cons_of_mem _ hz)
      refine ⟨fun _ heq => ?_, fun _ => hopen xs fun y hy => ?_⟩
      · have hmem : a ∈ ds.map Act.send ++ [.close] :=
          htail.subset (List.mem_append_right _ (List.mem_singleton.2 rfl))
        rw [heq, List.mem_append, List.mem_map] at hmem
        rcases hmem with ⟨d, -, hd⟩ | hlast
        · cases hd
        · cases List.mem_singleton.mp hlast
      · obtain ⟨d, -, hd⟩ := List.mem_map.mp (hsends.subset hy)
        exact ⟨d, hd.symm⟩

end Log

/-! ## §4. The invariant. -/

/-- What a follower has performed is what it was given. -/
structure FollowerInv (s : Sys) (f : Nat) : Prop where
  ok : (s.replicas f).Ok ((replayed (s.world.nodes f).applied).map Prod.snd)
  performed : (s.replicas f).performed.map Performed.key = replayed (s.world.nodes f).applied

/-- The state along a run: the group's, the hooks', and that of each follower. -/
structure ReplayInv (T : Request → Prop) (l : Nat) (s : Sys) : Prop where
  lap : LapInv T l s.world
  linked : s.Linked
  serial : SerialInv s.mgr
  follower : ∀ f, f ≠ l → FollowerInv s f

/-- The runs: the hooked calls on a descriptor do not overlap, and the group's steps
are of kind `ok`. -/
def TcpRun (l : Nat) (ok : World → Action → Prop) (s : Sys) (e : Event) : Prop :=
  Lift l ok s e ∧ Serial s e ∧ TcpOnly l e

instance (l : Nat) (ok : World → Action → Prop) [∀ w a, Decidable (ok w a)] (s : Sys) (e : Event) :
    Decidable (TcpRun l ok s e) := inferInstanceAs (Decidable (_ ∧ _ ∧ _))

section Inv
variable {T : Request → Prop} {l n f : Nat} {s s' : Sys} {e : Event}

/-- The submissions have the stamps (1,1), (1,2), …. -/
theorem ReplayInv.stamped (h : ReplayInv T l s) : Stamped s.mgr.log :=
  h.linked.stamped h.lap.tickets.short fun id c hc => (h.lap.tickets.call id c hc).next

/-- Two actions that `g` does not tell apart, under one number. -/
theorem map_index {g : Act → Act} {clt : ViewStamp} (index : Nat) {x : Option (ViewStamp × Act)}
    {y : Option Act}
    (h : x.map (Prod.map id g) = (y.map (Prod.mk clt)).map (Prod.map id g)) :
    (x.map (Prod.mk index)).map (Prod.map id (Prod.map id g))
      = (y.map fun a => (index, clt, a)).map (Prod.map id (Prod.map id g)) := by
  have hpair := congrArg (Option.map (Prod.mk index)) h
  cases x <;> cases y <;> first | rfl | exact hpair

/-- What a follower has applied are the first requests submitted, in whatever `g`
keeps of an action, if that is the same in all that may be read of a request. -/
theorem ReplayInv.replayed_map (h : ReplayInv T l s) (hf : f ≠ l) (g : Act → Act)
    (hg : ∀ q vs r, Reads T q vs r →
      (actOf r).map (Prod.map id g) = (actOf (q.record vs)).map (Prod.map id g)) :
    (replayed (s.world.nodes f).applied).map (Prod.map id (Prod.map id g))
      = (planned (s.mgr.log.take (s.world.nodes f).applied.length)).map
          (Prod.map id (Prod.map id g)) := by
  have happ := h.lap.inv.applied f hf
  have hle : (s.world.nodes f).applied.length ≤ s.mgr.log.length := by
    rw [h.linked.length, ← length_requests]
    exact happ.le
  unfold replayed planned
  rw [List.map_filterMap, List.map_filterMap]
  refine filterMap_eq_of_get (by rw [List.length_take, min_eq_left hle]) fun t v sub hv hsub => ?_
  have hlt := (List.getElem?_eq_some_iff.mp hv).1
  rw [List.getElem?_take_of_lt hlt] at hsub
  have hq : s.world.requests[t]? = some sub.req := by
    rw [← h.linked.requests, List.getElem?_map, hsub]
    rfl
  obtain ⟨b, hb, hread⟩ := h.lap.applied_get hf hq hlt
  obtain rfl : v = _ := Option.some.inj (hv.symm.trans hb)
  obtain ⟨_, -, hudp, -⟩ := h.serial.ids sub (List.mem_of_getElem? hsub)
  rw [← h.stamped.next t sub hsub] at hread ⊢
  have hact := hg _ _ _ hread
  rw [actOf_record sub hudp] at hact
  exact map_index (vstol sub.next) hact

/-- **What a follower has applied are the first requests submitted.** -/
theorem ReplayInv.replayed_eq (h : ReplayInv Request.Any l s) (hf : f ≠ l) :
    replayed (s.world.nodes f).applied
      = planned (s.mgr.log.take (s.world.nodes f).applied.length) := by
  have hmap := h.replayed_map hf id fun _ _ _ hread => by rw [hread.whole trivial]
  rwa [Prod.map_id, Prod.map_id, List.map_id, List.map_id] at hmap

/-- The clients connected are those that the first requests leave connected. -/
theorem ReplayInv.connected_eq (h : ReplayInv T l s) (hf : f ≠ l) (clt : ViewStamp) :
    connected (actsFor clt ((replayed (s.world.nodes f).applied).map Prod.snd))
      = connected (actsFor clt
          ((planned (s.mgr.log.take (s.world.nodes f).applied.length)).map Prod.snd)) := by
  have hmap := congrArg (List.map Prod.snd)
    (h.replayed_map hf Act.shape fun _ _ _ hread => actOf_sameHead hread.head)
  rw [← connected_shape, ← actsFor_shape, ← connected_shape (actsFor _ (List.map _ (planned _))),
    ← actsFor_shape, List.map_map, List.map_map]
  rw [List.map_map, List.map_map] at hmap
  exact congrArg (fun xs => connected (actsFor clt xs)) hmap

/-- **A payload or a close finds its pair, a connect finds none.** -/
theorem ReplayInv.pair_iff (h : ReplayInv T l s) (hf : f ≠ l) {entry index last : Nat} {b : Buf}
    (hpc : (s.world.nodes f).pc = .apply entry index last) (hle : index ≤ last)
    (hb : s.world.db f index = some b) {clt : ViewStamp} {a : Act}
    (hact : actOf (Record.decode b) = some (clt, a)) :
    ((s.replicas f).tcpMap clt).isSome = true ↔ a ≠ .connect := by
  obtain ⟨q, hq, hread⟩ := h.lap.next_record hf hpc hle hb
  rw [← h.linked.requests, List.getElem?_map] at hq
  obtain ⟨sub, hsub, rfl⟩ := Option.map_eq_some_iff.mp hq
  obtain ⟨c, hsrc, hudp, hid⟩ := h.serial.ids sub (List.mem_of_getElem? hsub)
  -- the record's action is the request's, but for the bytes sent
  have hshape := actOf_sameHead hread.head
  rw [hact, ← h.stamped.next _ sub hsub, actOf_record sub hudp, Option.map_map] at hshape
  obtain ⟨a', ha', hpair⟩ := Option.map_eq_some_iff.mp hshape.symm
  have hclt : sub.req.cltId sub.next = clt := congrArg Prod.fst hpair
  have hsame : a'.shape = a.shape := congrArg Prod.snd hpair
  have hnop := Submission.act_ne_nop ha'
  -- so far, the client's actions are a proper beginning of its connection's script
  rw [(h.follower f hf).ok.pair, h.connected_eq hf, ← hclt,
    actsFor_planned h.serial h.stamped (hid hnop) _ fun sub' h' => List.mem_of_mem_take h',
    Ne, ← Act.shape_connect hsame]
  refine connected_of_script (s.mgr.reads c) ?_
  have hstep := sentBy_take hsub hsrc
  rw [ha', Option.toList_some] at hstep
  rw [← hstep]
  exact (sentBy_take_initial _).trans (h.serial.order c)

/-- Before the first event. -/
theorem ReplayInv.booted (hl : l < n) : ReplayInv T l (Sys.booted n l) := by
  refine ⟨.booted hl, rfl, .new, fun f _ => ?_⟩
  have happ : ((Sys.booted n l).world.nodes f).applied = [] := booted_applied n l f
  refine ⟨?_, ?_⟩ <;> rw [happ]
  · exact Replica.Ok.new
  · rfl

/-- `update_state` returns only with a record. -/
theorem updateState_stored {r r' : Replica} {index fd : Nat} {stored : Option Buf}
    (h : r.updateState index stored fd = some r') : ∃ b, stored = some b := by
  cases stored with
  | none => cases h
  | some b => exact ⟨b, rfl⟩

/-- The tables of a follower follow the records it is given. -/
theorem FollowerStep.ok {r : Replica} {applied : List (Nat × Option Buf)}
    (hstep : FollowerStep s f r applied)
    (hok : (s.replicas f).Ok ((replayed (s.world.nodes f).applied).map Prod.snd)) :
    r.Ok ((replayed applied).map Prod.snd) := by
  cases hstep with
  | keep => exact hok
  | start => exact .new
  | wait _ hwait => exact hok.waitAccepted hwait
  | accept haccept => exact hok.mgrOnAccept haccept
  | close hclose => exact hok.close hclose
  | @update entry index last fd r hnone hpc hle hupdate =>
      obtain ⟨b, hb⟩ := updateState_stored hupdate
      rw [hb] at hupdate ⊢
      have hacts : ((actOf (Record.decode b)).map (Prod.mk index)).toList.map Prod.snd
          = (actOf (Record.decode b)).toList := by
        cases actOf (Record.decode b) <;> rfl
      rw [replayed_append, List.map_append, hacts]
      exact hok.updateState hupdate

/-- Every event keeps a follower in step with its records. -/
theorem FollowerInv.preserved (h : ReplayInv T l s) (hf : f ≠ l) (hstep : Sys.Stepped l s e s') :
    FollowerInv s' f := by
  obtain ⟨hok, hperf⟩ := h.follower f hf
  have hfol : FollowerStep s f (s'.replicas f) (s'.world.nodes f).applied := hstep.follower
  refine ⟨hfol.ok hok, ?_⟩
  generalize s'.replicas f = r, (s'.world.nodes f).applied = applied at hfol ⊢
  cases hfol with
  | keep => exact hperf
  | start => rfl
  | wait _ hwait => rw [waitAccepted_performed hwait, hperf]
  | accept haccept => rw [mgrOnAccept_performed haccept, hperf]
  | close hclose => rw [close_performed hclose, hperf]
  | @update entry index last fd r hnone hpc hle hupdate =>
      obtain ⟨b, hb⟩ := updateState_stored hupdate
      rw [hb] at hupdate ⊢
      rw [replayed_append, updateState_performed hupdate fun clt a hact =>
        (h.pair_iff hf hpc hle hb hact).mpr, hperf]

/-- **The step lemma.** -/
theorem ReplayInv.preserved (h : ReplayInv T l s) (hok : TcpRun l (OneLap l) s e)
    (hT : ∀ a, s.action l e = some a → (∀ q, T q → q.Short) ∨ SizeArrived s.world a)
    (hstep : Sys.Stepped l s e s') : ReplayInv T l s' := by
  obtain ⟨hlift, hserial, htcp⟩ := hok
  exact ⟨hstep.world_rule h.lap fun a ha hs => h.lap.preserved (hlift a ha) (hT a ha) hs,
    h.linked.preserved hstep htcp.not_start, h.serial.preserved hstep hserial htcp,
    fun f hf => .preserved h hf hstep⟩

/-- **The run lemma.** -/
theorem replayInv_reaches {ok : World → Action → Prop} (hl : l < n) (hok : ∀ w a, ok w a → OneLap l w a)
    (hT : ∀ w a, ok w a → (∀ q, T q → q.Short) ∨ SizeArrived w a)
    (h : Reaches (Sys.step l) (TcpRun l ok) (Sys.booted n l) s) : ReplayInv T l s :=
  h.invariant (I := ReplayInv T l) (.booted hl) fun _ _ _ hinv hoke hs =>
    hinv.preserved ⟨fun a ha => hok _ a (hoke.1 a ha), hoke.2⟩ (fun a ha => hT _ a (hoke.1 a ha))
      (Sys.stepped hs)

end Inv

end RdmaPaxos.EvMgr
