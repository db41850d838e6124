/-
  RdmaPaxos.EvMgr.HookSteps
  ─────────────────────────
  **WHAT AN EVENT CAN DO.**

  The step functions of the leader's process as relations with one named case
  per branch: `LocalStep` for a hook, `MgrStep` for all events.  A run of the
  whole is a run of the group (`reaches_world`), and what the hooks submitted is
  the list of the group's calls (`Sys.Linked`), so every result about the group
  is one about the whole.  `OnePerFd` is for runs in which the calls on a
  descriptor do not overlap: what a step does to one descriptor, hook by hook.
  `Tables` is what holds of the descriptors and the map in any case.
-/
import RdmaPaxos.Consensus.Invariant
import RdmaPaxos.EvMgr.Hooks

namespace RdmaPaxos.EvMgr

open RdmaPaxos.Run RdmaPaxos.Output

/-! ## §1. Hooks. -/

/-- The steps of hook `h`, in state `k`, that submit nothing. -/
inductive LocalStep (m : Mgr) (returned : Nat → Bool) (h : Nat) (k : Hook) : Mgr → Prop where
  | add (hpc : k.pc = .add) :
      LocalStep m returned h k ((m.addTcp k.fd).goto h k (.connect m.pairs.length))
  | find {buf : Buf} {p : Nat} {ps : List Nat} (hpc : k.pc = .find buf)
      (hmap : m.tcpMap k.fd = p :: ps) : LocalStep m returned h k (m.goto h k (.send buf p))
  | udpNew {saData key : List UInt8} {buf : Buf} (hpc : k.pc = .udpFind saData buf)
      (hkey : cString saData = some key) (hmap : m.udpMap key = []) :
      LocalStep m returned h k (m.goto h k (.udpAdd saData buf))
  | udpFind {saData key : List UInt8} {buf : Buf} {p : Nat} {ps : List Nat}
      (hpc : k.pc = .udpFind saData buf) (hkey : cString saData = some key)
      (hmap : m.udpMap key = p :: ps) : LocalStep m returned h k (m.goto h k (.send buf p))
  | udpAdd {saData key : List UInt8} {buf : Buf} (hpc : k.pc = .udpAdd saData buf)
      (hkey : cString saData = some key) :
      LocalStep m returned h k ((m.addUdp key).goto h k (.udpConnect m.pairs.length buf))
  | stored {data : List UInt8} {output : OutputMgr} (hpc : k.pc = .check data)
      (hcheck : checkProposal m.output k.fd data true = (output, none)) :
      LocalStep m returned h k ({ m with output := output }.goto h k .done)
  | proposed {data : List UInt8} {output : OutputMgr} {index : Int} (hpc : k.pc = .check data)
      (hcheck : checkProposal m.output k.fd data true = (output, some index)) :
      LocalStep m returned h k ({ m with output := output }.goto h k (.outputFind index))
  | outputFind {index : Int} {p : Nat} {ps : List Nat} (hpc : k.pc = .outputFind index)
      (hmap : m.tcpMap k.fd = p :: ps) : LocalStep m returned h k (m.goto h k (.output index p))
  | delOutput (hpc : k.pc = .delOutput) :
      LocalStep m returned h k ({ m with output := (delOutput m.output k.fd).1 }.goto h k .closeFind)
  | unmapped (hpc : k.pc = .closeFind) (hmap : m.tcpMap k.fd = []) :
      LocalStep m returned h k (m.goto h k .origClose)
  | closeFind {p : Nat} {ps : List Nat} (hpc : k.pc = .closeFind) (hmap : m.tcpMap k.fd = p :: ps) :
      LocalStep m returned h k (m.goto h k (.closeDel p))
  | closeDel {p : Nat} (hpc : k.pc = .closeDel p) (hmem : p ∈ m.tcpMap k.fd) :
      LocalStep m returned h k ({ m with
        tcpMap := Function.update m.tcpMap k.fd ((m.tcpMap k.fd).erase p) }.goto h k
          (.close (m.vs p)))
  | origClose (hpc : k.pc = .origClose) :
      LocalStep m returned h k ({ m with fds := Function.update m.fds k.fd none }.goto h k .done)
  | returns {id : Nat} {next : HookPc} (hpc : k.pc = .wait id next) (hret : returned id = true) :
      LocalStep m returned h k (m.goto h k next)

/-- Every local step is one of these. -/
theorem localStep_cases {m m' : Mgr} {returned : Nat → Bool} {h : Nat} {k : Hook}
    (hstep : m.localStep returned h k = some m') : LocalStep m returned h k m' := by
  unfold Mgr.localStep at hstep
  split at hstep
  next hpc => cases hstep; exact .add hpc
  next hpc =>
    split at hstep
    next => cases hstep
    next hmap => cases hstep; exact .find hpc hmap
  next hpc =>
    split at hstep
    next => cases hstep
    next hkey =>
      split at hstep
      next hmap => cases hstep; exact .udpNew hpc hkey hmap
      next hmap => cases hstep; exact .udpFind hpc hkey hmap
  next hpc =>
    split at hstep
    next => cases hstep
    next hkey => cases hstep; exact .udpAdd hpc hkey
  next hpc =>
    split at hstep
    next hcheck => cases hstep; exact .stored hpc hcheck
    next hcheck => cases hstep; exact .proposed hpc hcheck
  next hpc =>
    split at hstep
    next => cases hstep
    next hmap => cases hstep; exact .outputFind hpc hmap
  next hpc => cases hstep; exact .delOutput hpc
  next hpc =>
    split at hstep
    next hmap => cases hstep; exact .unmapped hpc hmap
    next hmap => cases hstep; exact .closeFind hpc hmap
  next hpc =>
    split at hstep
    next hmem => cases hstep; exact .closeDel hpc hmem
    next => cases hstep
  next hpc => cases hstep; exact .origClose hpc
  next hpc =>
    split at hstep
    next hret => cases hstep; exact .returns hpc hret
    next => cases hstep
  next => cases hstep

/-! ## §2. The group inside. -/

/-- The parts of a step. -/
structure Sys.Stepped (l : Nat) (s : Sys) (e : Event) (s' : Sys) : Prop where
  runs : s.runs l e = true
  world : (match s.action l e with
    | none => some s.world
    | some a => RdmaPaxos.step s.world a) = some s'.world
  mgr : s.mgrStep l e = some s'.mgr
  replicas : s.replicasStep e = some s'.replicas

/-- Every event is one of these. -/
theorem Sys.stepped {l : Nat} {s s' : Sys} {e : Event} (h : s.step l e = some s') :
    Sys.Stepped l s e s' := by
  unfold Sys.step at h
  split at h
  next hruns =>
    split at h
    next world mgr replicas hworld hmgr hreplicas =>
      cases h
      exact ⟨hruns, hworld, hmgr, hreplicas⟩
    next => cases h
  next => cases h

/-- The event is one that `ok` admits in the group. -/
def Lift (l : Nat) (ok : World → Action → Prop) (s : Sys) (e : Event) : Prop :=
  ∀ a ∈ s.action l e, ok s.world a

instance (l : Nat) (ok : World → Action → Prop) [∀ w a, Decidable (ok w a)] (s : Sys) (e : Event) :
    Decidable (Lift l ok s e) := inferInstanceAs (Decidable (∀ a ∈ s.action l e, ok s.world a))

section Projection
variable {l : Nat} {s s' : Sys} {e : Event}

/-- The group takes the step the event stands for, or none. -/
theorem Sys.Stepped.world_cases (h : Sys.Stepped l s e s') :
    (s.action l e = none ∧ s'.world = s.world)
      ∨ ∃ a, s.action l e = some a ∧ RdmaPaxos.step s.world a = some s'.world := by
  have hw := h.world
  split at hw
  next hnone => exact .inl ⟨hnone, (Option.some.inj hw).symm⟩
  next a ha => exact .inr ⟨a, ha, hw⟩

/-- A property of the group that its steps keep, the whole keeps. -/
theorem Sys.Stepped.world_rule {W : World → Prop} (h : Sys.Stepped l s e s') (hW : W s.world)
    (hstep : ∀ a, s.action l e = some a → RdmaPaxos.step s.world a = some s'.world → W s'.world) :
    W s'.world := by
  rcases h.world_cases with ⟨-, heq⟩ | ⟨a, ha, hs⟩
  · rw [heq]
    exact hW
  · exact hstep a ha hs

/-- **A run of the whole is a run of the group.** -/
theorem reaches_world {okS : Sys → Event → Prop} {ok : World → Action → Prop} {s₀ : Sys}
    (hok : ∀ s e, okS s e → Lift l ok s e) (h : Reaches (Sys.step l) okS s₀ s) :
    Reaches RdmaPaxos.step ok s₀.world s.world := by
  refine h.project (f := Sys.world) fun s e s' hoke hstep => ?_
  rcases (Sys.stepped hstep).world_cases with ⟨-, heq⟩ | ⟨a, ha, hs⟩
  · exact .inl heq
  · exact .inr ⟨a, hok s e hoke a ha, hs⟩

/-! ## §3. The leader's process. -/

/-- The leader's process, one case per kind of event. -/
inductive MgrStep (l : Nat) (s : Sys) : Event → Mgr → Prop where
  | restart {modeS : Bool} : MgrStep l s (.world (.start l modeS)) .new
  | start {i : Nat} {modeS : Bool} (hi : i ≠ l) : MgrStep l s (.world (.start i modeS)) s.mgr
  | world {a : Action} (hext : Action.isExternal a = true) (hstart : ∀ i modeS, a ≠ .start i modeS) :
      MgrStep l s (.world a) s.mgr
  | replica {i hash fd : Nat} {stored : Bool} : MgrStep l s (.replica i stored hash fd) s.mgr
  | replicaAccept {i fd : Nat} : MgrStep l s (.replicaAccept i fd) s.mgr
  | replicaClose {i fd : Nat} : MgrStep l s (.replicaClose i fd) s.mgr
  | socket {fd : Nat} {m : Mgr} (hopen : s.mgr.openSock fd = some m) : MgrStep l s (.socket fd) m
  | accept {fd : Nat} {m : Mgr} (hopen : s.mgr.openSock fd = some m) :
      MgrStep l s (.accept fd) (m.enter fd (.conn s.mgr.opened) .add)
  | read {fd c : Nat} {buf : Buf} (hfd : s.mgr.fds fd = some c) (hpos : 0 < buf.size) :
      MgrStep l s (.read fd buf) ({ s.mgr with
        reads := Function.update s.mgr.reads c (s.mgr.reads c ++ [buf.toList]) }.enter fd (.conn c)
          (.find buf))
  | recvfrom {fd c : Nat} {saData : List UInt8} {buf : Buf} (hfd : s.mgr.fds fd = some c) :
      MgrStep l s (.recvfrom fd saData buf) (s.mgr.enter fd (.peer saData) (.udpFind saData buf))
  | write {fd c : Nat} {data : List UInt8} (hfd : s.mgr.fds fd = some c) :
      MgrStep l s (.write fd data) (s.mgr.enter fd (.conn c) (.check data))
  | close {fd c : Nat} (hfd : s.mgr.fds fd = some c) :
      MgrStep l s (.close fd) ({ s.mgr with closed := Function.update s.mgr.closed c true }.enter
        fd (.conn c) .delOutput)
  | submit {h : Nat} {k : Hook} {q : Request} (hk : s.mgr.hooks[h]? = some k)
      (hq : s.mgr.request k.pc = some q) :
      MgrStep l s (.hook h)
        (s.mgr.rsmOp h k q s.world.calls.length (getNextViewStamp (s.world.nodes l)))
  | hook {h : Nat} {k : Hook} {m : Mgr} (hk : s.mgr.hooks[h]? = some k)
      (hq : s.mgr.request k.pc = none)
      (hstep : LocalStep s.mgr (World.hasReturned s.world) h k m) : MgrStep l s (.hook h) m

/-- Every step of the event manager is one of these. -/
theorem mgrStep_cases {m : Mgr} (h : s.mgrStep l e = some m) : MgrStep l s e m := by
  cases e with
  | world a =>
      cases a with
      | start i modeS =>
          simp only [Sys.mgrStep] at h
          split at h
          next heq => cases h; subst heq; exact .restart
          next hne => cases h; exact .start hne
      | submit | replica => cases h
      | crash | joinReply | connect | destroy | relaunch | call | deliverEntry | deliverAck =>
          cases h
          exact .world rfl nofun
  | replica => cases h; exact .replica
  | replicaAccept => cases h; exact .replicaAccept
  | replicaClose => cases h; exact .replicaClose
  | socket fd => exact .socket h
  | accept fd =>
      obtain ⟨m', hopen, rfl⟩ := Option.map_eq_some_iff.mp h
      exact .accept hopen
  | read fd buf =>
      simp only [Sys.mgrStep] at h
      split at h
      next c hfd =>
        split at h
        next hpos => cases h; exact .read hfd hpos
        next => cases h
      next => cases h
  | recvfrom fd saData buf =>
      simp only [Sys.mgrStep] at h
      split at h
      next hfd => cases h; exact .recvfrom hfd
      next => cases h
  | write fd data =>
      simp only [Sys.mgrStep] at h
      split at h
      next hfd => cases h; exact .write hfd
      next => cases h
  | close fd =>
      simp only [Sys.mgrStep] at h
      split at h
      next hfd => cases h; exact .close hfd
      next => cases h
  | hook n =>
      simp only [Sys.mgrStep] at h
      split at h
      next => cases h
      next k hk =>
        split at h
        next q hq => cases h; exact .submit hk hq
        next hq => exact .hook hk hq (localStep_cases h)

/-- A local step submits nothing. -/
theorem LocalStep.log {m m' : Mgr} {returned : Nat → Bool} {h : Nat} {k : Hook}
    (hstep : LocalStep m returned h k m') : m'.log = m.log := by
  cases hstep <;> rfl

/-- A new socket gets a free descriptor and the next number. -/
theorem openSock_eq {m m' : Mgr} {fd : Nat} (h : m.openSock fd = some m') :
    m.fds fd = none ∧ m' = { m with
      fds := Function.update m.fds fd (some m.opened), opened := m.opened + 1 } := by
  unfold Mgr.openSock at h
  split at h
  next hfd => cases h; exact ⟨hfd, rfl⟩
  next => cases h

/-! ## §4. Submissions and calls. -/

/-- What was submitted, and what the group made of it. -/
def Sys.Linked (s : Sys) : Prop :=
  s.mgr.log.map (fun sub => (sub.req, sub.next)) = s.world.calls.map fun c => (c.req, c.next)

/-- As many submissions as calls. -/
theorem Sys.Linked.length (h : s.Linked) : s.mgr.log.length = s.world.calls.length := by
  have := congrArg List.length h
  rwa [List.length_map, List.length_map] at this

/-- The call of a submission. -/
theorem Sys.Linked.call (h : s.Linked) {id : Nat} {sub : Submission}
    (hsub : s.mgr.log[id]? = some sub) :
    ∃ c, s.world.calls[id]? = some c ∧ c.req = sub.req ∧ c.next = sub.next := by
  have hget := congrArg (·[id]?) h
  simp only [List.getElem?_map, hsub, Option.map_some] at hget
  obtain ⟨c, hc, hpair⟩ := Option.map_eq_some_iff.mp hget.symm
  exact ⟨c, hc, congrArg Prod.fst hpair, congrArg Prod.snd hpair⟩

/-- The requests submitted are those of the group. -/
theorem Sys.Linked.requests (h : s.Linked) : s.mgr.log.map Submission.req = s.world.requests := by
  have := congrArg (List.map Prod.fst) h
  rwa [List.map_map, List.map_map] at this

/-- Nothing but a submission changes what a call was made with. -/
theorem calls_kept {w w' : World} {a : Action} (h : RdmaPaxos.step w a = some w')
    (hne : ∀ i q, a ≠ .submit i q) :
    w'.calls.map (fun c => (c.req, c.next)) = w.calls.map fun c => (c.req, c.next) := by
  cases step_cases h with
  | submit => exact absurd rfl (hne _ _)
  | call hc _ _ hcall =>
      obtain ⟨c', hcalls, hsame⟩ := hcall.frame hc
      rw [hcalls]
      exact map_set_same hc (by rw [hsame.req, hsame.next])
  | replica _ hrep => rw [hrep.frame.2.1]
  | start | crash | joinReply | connect | destroy | relaunch | deliverEntry | deliverAck => rfl

/-- **The log of the hooks is the list of the group's calls**, as long as the
leader's process is not started again. -/
theorem Sys.Linked.preserved (h : s.Linked) (hstep : Sys.Stepped l s e s')
    (hstart : ∀ modeS, e ≠ .world (.start l modeS)) : s'.Linked := by
  -- every event but a submission
  have hkeep : s'.mgr.log = s.mgr.log → (∀ a ∈ s.action l e, ∀ i q, a ≠ .submit i q) →
      s'.Linked := by
    intro hlog hact
    unfold Sys.Linked
    rw [hlog]
    exact hstep.world_rule (W := fun w => s.mgr.log.map _ = w.calls.map _) h fun a ha hs =>
      h.trans (calls_kept hs (hact a ha)).symm
  have hmgr := mgrStep_cases hstep.mgr
  generalize hm : s'.mgr = m' at hmgr hkeep
  cases hmgr with
  | restart => exact absurd rfl (hstart _)
  | start => exact hkeep rfl fun a ha i q heq => by cases ha; cases heq
  | world hext _ =>
      refine hkeep rfl fun a ha i q heq => ?_
      cases ha
      subst heq
      cases hext
  | replica =>
      refine hkeep rfl fun a ha i q heq => ?_
      simp only [Sys.action] at ha
      split at ha
      · cases ha
      · cases ha
        cases heq
  | replicaAccept | replicaClose | read | recvfrom | write | close =>
      exact hkeep rfl fun a ha => by cases ha
  | socket hopen | accept hopen =>
      obtain ⟨-, rfl⟩ := openSock_eq hopen
      exact hkeep rfl fun a ha => by cases ha
  | @hook n k _ hk hq hlocal =>
      refine hkeep hlocal.log fun a ha => ?_
      simp only [Sys.action, hk, hq, Option.bind_some, Option.map_none] at ha
      cases ha
  | @submit n k q hk hq =>
      have hw := hstep.world
      simp only [Sys.action, hk, hq, Option.bind_some, Option.map_some] at hw
      unfold Sys.Linked
      rw [hm]
      generalize s'.world = w' at hw ⊢
      cases step_cases hw with
      | submit =>
          show (s.mgr.log ++ [_]).map _ = (s.world.calls ++ [_]).map _
          rw [List.map_append, List.map_append, h]
          rfl

end Projection

/-! ## §5. Hooks and the descriptors they work on. -/

/-- At most one hook is active on a descriptor.  `At` holds where it is, and `Idle` on
the descriptors without one. -/
structure OnePerFd (m : Mgr) (At : Nat → Nat → Source → HookPc → Prop) (Idle : Nat → Nat → Prop) :
    Prop where
  one : ∀ (i j : Nat) (k k' : Hook), m.hooks[i]? = some k → m.hooks[j]? = some k' → k.fd = k'.fd →
    k.pc.isDone = false → k'.pc.isDone = false → i = j
  active : ∀ k ∈ m.hooks, k.pc.isDone = false → ∃ c, m.fds k.fd = some c ∧ At k.fd c k.src k.pc
  idle : ∀ fd c, m.fds fd = some c → (∀ k ∈ m.hooks, k.fd = fd → k.pc.isDone = true) → Idle fd c

section Descriptors
variable {m m' : Mgr} {fd h : Nat} {k : Hook} {pc : HookPc} {src : Source}
  {At At' : Nat → Nat → Source → HookPc → Prop} {Idle Idle' : Nat → Nat → Prop}

/-- **A hook goes from one point to the next**, and the other descriptors do not
notice. -/
theorem OnePerFd.move (hm : OnePerFd m At Idle) (hk : m.hooks[h]? = some k)
    (hact : k.pc.isDone = false) (hhooks : m'.hooks = m.hooks)
    (hfds : ∀ x, x ≠ k.fd → m'.fds x = m.fds x)
    (hat : ∀ x d, x ≠ k.fd → m.fds x = some d → ∀ src pc, At x d src pc → At' x d src pc)
    (hidle : ∀ x d, x ≠ k.fd → m.fds x = some d → Idle x d → Idle' x d) (calls : List Nat)
    (hown : (∃ c, m'.fds k.fd = some c ∧ At' k.fd c k.src pc ∧ (pc.isDone = true → Idle' k.fd c))
      ∨ m'.fds k.fd = none ∧ pc.isDone = true) :
    OnePerFd { m' with hooks := m'.hooks.set h { k with calls := calls, pc := pc } } At' Idle' := by
  -- the hooks afterwards: this one, on the same descriptor, and the others
  have hget : ∀ {i : Nat} {k₁ : Hook},
      (m'.hooks.set h { k with calls := calls, pc := pc })[i]? = some k₁ →
      (i = h ∧ k₁ = { k with calls := calls, pc := pc }) ∨ i ≠ h ∧ m.hooks[i]? = some k₁ := by
    intro i k₁ h₁
    rw [hhooks] at h₁
    exact Ticket.get_set h₁
  refine ⟨?_, ?_, ?_⟩
  · have hlift : ∀ {i : Nat} {k₁ : Hook},
        (m'.hooks.set h { k with calls := calls, pc := pc })[i]? = some k₁ → k₁.pc.isDone = false →
        ∃ k₀, m.hooks[i]? = some k₀ ∧ k₀.fd = k₁.fd ∧ k₀.pc.isDone = false := by
      intro i k₁ h₁ hp₁
      rcases hget h₁ with ⟨rfl, rfl⟩ | ⟨-, hold⟩
      · exact ⟨k, hk, rfl, hact⟩
      · exact ⟨k₁, hold, rfl, hp₁⟩
    intro i j k₁ k₂ h₁ h₂ heq hp₁ hp₂
    obtain ⟨o₁, ho₁, hf₁, hd₁⟩ := hlift h₁ hp₁
    obtain ⟨o₂, ho₂, hf₂, hd₂⟩ := hlift h₂ hp₂
    exact hm.one i j o₁ o₂ ho₁ ho₂ (by rw [hf₁, hf₂, heq]) hd₁ hd₂
  · intro k₁ hk₁ hp₁
    obtain ⟨i, hi⟩ := List.mem_iff_getElem?.mp hk₁
    rcases hget hi with ⟨rfl, rfl⟩ | ⟨hne, hold⟩
    · rcases hown with ⟨c, hsome, hc, -⟩ | ⟨-, hdone⟩
      · exact ⟨c, hsome, hc⟩
      · exact absurd hdone (by rw [show pc.isDone = false from hp₁]; decide)
    · have hfdne : k₁.fd ≠ k.fd := fun heq => hne (hm.one i h k₁ k hold hk heq hp₁ hact)
      obtain ⟨d, hd, hk₁d⟩ := hm.active k₁ (List.mem_of_getElem? hold) hp₁
      exact ⟨d, by rw [hfds _ hfdne]; exact hd, hat _ d hfdne hd _ _ hk₁d⟩
  · intro x d hd hdone
    have hlt : h < m'.hooks.length := by
      rw [hhooks]
      exact (List.getElem?_eq_some_iff.mp hk).1
    rcases eq_or_ne x k.fd with rfl | hne
    · -- the hook was the last one on its descriptor
      have hpc : pc.isDone = true :=
        hdone { k with calls := calls, pc := pc } (List.mem_set hlt _) rfl
      have hd' : m'.fds k.fd = some d := hd
      rcases hown with ⟨c, hsome, -, hc⟩ | ⟨hnone, -⟩
      · obtain rfl : c = d := Option.some.inj (hsome.symm.trans hd')
        exact hc hpc
      · rw [hnone] at hd'
        cases hd'
    · have hd' : m.fds x = some d := (hfds x hne).symm.trans hd
      refine hidle x d hne hd' (hm.idle x d hd' fun k₁ hk₁ hx => ?_)
      obtain ⟨i, hi⟩ := List.mem_iff_getElem?.mp hk₁
      have hih : i ≠ h := by
        rintro rfl
        obtain rfl : k = k₁ := Option.some.inj (hk.symm.trans hi)
        exact hne hx.symm
      refine hdone k₁ (List.mem_iff_getElem?.mpr ⟨i, ?_⟩) hx
      show (m'.hooks.set h _)[i]? = some k₁
      rw [hhooks, List.getElem?_set_ne hih.symm]
      exact hi

/-- **A call is made on a descriptor without a hook.** -/
theorem OnePerFd.enter {c : Nat} (hm : OnePerFd m At Idle)
    (hfree : ∀ k ∈ m.hooks, k.fd = fd → k.pc.isDone = true) (hhooks : m'.hooks = m.hooks)
    (hfds : ∀ x, x ≠ fd → m'.fds x = m.fds x)
    (hat : ∀ x d, x ≠ fd → m.fds x = some d → ∀ src pc, At x d src pc → At' x d src pc)
    (hidle : ∀ x d, x ≠ fd → m.fds x = some d → Idle x d → Idle' x d)
    (hfd : m'.fds fd = some c) (hown : At' fd c src pc) (hpc : pc.isDone = false) :
    OnePerFd (m'.enter fd src pc) At' Idle' := by
  have hget : ∀ {i : Nat} {k₁ : Hook}, (m'.hooks ++ [⟨fd, src, [], pc⟩])[i]? = some k₁ →
      (i < m.hooks.length ∧ m.hooks[i]? = some k₁)
        ∨ i = m.hooks.length ∧ k₁ = ⟨fd, src, [], pc⟩ := by
    intro i k₁ h₁
    rw [hhooks] at h₁
    exact Ticket.get_concat h₁
  -- no earlier hook on this descriptor is active
  have hne : ∀ {i : Nat} {k₁ : Hook}, m.hooks[i]? = some k₁ → k₁.pc.isDone = false → k₁.fd ≠ fd := by
    intro i k₁ h₁ hp₁ heq
    rw [hfree k₁ (List.mem_of_getElem? h₁) heq] at hp₁
    cases hp₁
  refine ⟨?_, ?_, ?_⟩
  · intro i j k₁ k₂ h₁ h₂ heq hp₁ hp₂
    rcases hget h₁ with ⟨-, o₁⟩ | ⟨hi, rfl⟩ <;> rcases hget h₂ with ⟨-, o₂⟩ | ⟨hj, rfl⟩
    · exact hm.one i j k₁ k₂ o₁ o₂ heq hp₁ hp₂
    · exact absurd heq (hne o₁ hp₁)
    · exact absurd heq.symm (hne o₂ hp₂)
    · rw [hi, hj]
  · intro k₁ hk₁ hp₁
    obtain ⟨i, hi⟩ := List.mem_iff_getElem?.mp hk₁
    rcases hget hi with ⟨-, hold⟩ | ⟨-, rfl⟩
    · have hfdne := hne hold hp₁
      obtain ⟨d, hd, hk₁d⟩ := hm.active k₁ (List.mem_of_getElem? hold) hp₁
      exact ⟨d, (hfds _ hfdne).trans hd, hat _ d hfdne hd _ _ hk₁d⟩
    · exact ⟨c, hfd, hown⟩
  · intro x d hd hdone
    rcases eq_or_ne x fd with rfl | hx
    · have hlast : pc.isDone = true := hdone ⟨x, src, [], pc⟩
        (List.mem_append_right _ (List.mem_singleton.2 rfl)) rfl
      rw [hpc] at hlast
      cases hlast
    · have hd' : m.fds x = some d := (hfds x hx).symm.trans hd
      refine hidle x d hx hd' (hm.idle x d hd' fun k₁ hk₁ => hdone k₁ (List.mem_append_left _ ?_))
      rw [hhooks]
      exact hk₁

end Descriptors

/-! ## §6. The descriptors and `leader_tcp_map`. -/

/-- A free descriptor has no pair, a descriptor has its own socket, a pair its own
descriptor. -/
structure Tables (m : Mgr) : Prop where
  free : ∀ fd, m.fds fd = none → m.tcpMap fd = []
  inj : ∀ fd fd' c, m.fds fd = some c → m.fds fd' = some c → fd = fd'
  old : ∀ fd c, m.fds fd = some c → c < m.opened
  bound : ∀ fd p, p ∈ m.tcpMap fd → p < m.pairs.length
  apart : ∀ fd fd' p, p ∈ m.tcpMap fd → p ∈ m.tcpMap fd' → fd = fd'

/-- Beside descriptor `fd`, `m'` is as `m`. -/
structure Beside (m m' : Mgr) (fd : Nat) : Prop where
  hooks : m'.hooks = m.hooks
  fds : ∀ x, x ≠ fd → m'.fds x = m.fds x
  tcpMap : ∀ x, x ≠ fd → m'.tcpMap x = m.tcpMap x
  pairs : ∀ x p, x ≠ fd → p ∈ m.tcpMap x → m'.pairs[p]? = m.pairs[p]?

section Tables
variable {m m' : Mgr} {fd c : Nat}

/-- Nothing but the descriptors, the map and the pairs matters. -/
theorem Tables.congr (ht : Tables m) (hfds : m'.fds = m.fds) (hmap : m'.tcpMap = m.tcpMap)
    (hpairs : m'.pairs = m.pairs) (hopened : m'.opened = m.opened) : Tables m' := by
  constructor <;> simp only [hfds, hmap, hpairs, hopened]
  · exact ht.free
  · exact ht.inj
  · exact ht.old
  · exact ht.bound
  · exact ht.apart

/-- A step that leaves the tables alone. -/
theorem Beside.of_same (hhooks : m'.hooks = m.hooks) (hfds : m'.fds = m.fds)
    (hmap : m'.tcpMap = m.tcpMap) (hpairs : m'.pairs = m.pairs) : Beside m m' fd :=
  ⟨hhooks, fun _ _ => by rw [hfds], fun _ _ => by rw [hmap], fun _ _ _ _ => by rw [hpairs]⟩

/-- The descriptor is handed out, or closed. -/
theorem Beside.setFd (m : Mgr) (fd : Nat) (v : Option Nat) (opened : Nat) :
    Beside m { m with fds := Function.update m.fds fd v, opened := opened } fd :=
  ⟨rfl, fun _ hx => Function.update_of_ne hx .., fun _ _ => rfl, fun _ _ _ _ => rfl⟩

/-- `HASH_DEL` of a pair under the descriptor. -/
theorem Beside.erase (m : Mgr) (fd p : Nat) :
    Beside m { m with tcpMap := Function.update m.tcpMap fd ((m.tcpMap fd).erase p) } fd :=
  ⟨rfl, fun _ _ => rfl, fun _ hx => Function.update_of_ne hx .., fun _ _ _ _ => rfl⟩

/-- `HASH_ADD_INT` under the descriptor. -/
theorem Tables.beside_addTcp (ht : Tables m) (fd : Nat) : Beside m (m.addTcp fd) fd :=
  ⟨rfl, fun _ _ => rfl, fun _ hx => Function.update_of_ne hx ..,
    fun x p _ hp => List.getElem?_append_left (ht.bound x p hp)⟩

/-- Only pairs under `fd` are written to. -/
theorem Tables.beside_pairs {pairs : List ViewStamp} (ht : Tables m) (log : List Submission)
    (hpairs : ∀ p, p ∉ m.tcpMap fd → pairs[p]? = m.pairs[p]?) :
    Beside m { m with pairs := pairs, log := log } fd :=
  ⟨rfl, fun _ _ => rfl, fun _ _ => rfl,
    fun x p hx hp => hpairs p fun hp' => hx (ht.apart x fd p hp hp')⟩

/-- A descriptor is handed out. -/
theorem Tables.openSock (ht : Tables m) (hopen : m.openSock fd = some m') : Tables m' := by
  obtain ⟨hnone, rfl⟩ := openSock_eq hopen
  refine ⟨fun x hx => ?_, fun x y d hx hy => ?_, fun x d hx => ?_, ht.bound, ht.apart⟩
  · rcases eq_or_ne x fd with rfl | hxne
    · exact ht.free x hnone
    · exact ht.free x ((Function.update_of_ne hxne ..).symm.trans hx)
  · -- sockets are numbered in the order they are opened
    rcases update_get hx with ⟨rfl, hv⟩ | ⟨-, hx'⟩ <;> rcases update_get hy with ⟨rfl, hv'⟩ | ⟨-, hy'⟩
    · rfl
    · cases hv
      exact absurd rfl (ht.old y _ hy').ne
    · cases hv'
      exact absurd rfl (ht.old x _ hx').ne
    · exact ht.inj x y d hx' hy'
  · rcases update_get hx with ⟨rfl, hv⟩ | ⟨-, hx'⟩
    · cases hv
      exact Nat.lt_succ_self _
    · exact (ht.old x d hx').trans (Nat.lt_succ_self _)

/-- `HASH_ADD_INT`. -/
theorem Tables.addTcp (ht : Tables m) (hfd : m.fds fd = some c) : Tables (m.addTcp fd) := by
  -- the pairs there were, and the new one
  have hmem : ∀ x p, p ∈ (m.addTcp fd).tcpMap x →
      (x = fd ∧ p = m.pairs.length) ∨ p ∈ m.tcpMap x := by
    intro x p hp
    rcases eq_or_ne x fd with rfl | hx
    · rw [show (m.addTcp x).tcpMap x = _ from Function.update_self ..] at hp
      rcases List.mem_cons.mp hp with rfl | hold
      · exact .inl ⟨rfl, rfl⟩
      · exact .inr hold
    · rw [show (m.addTcp fd).tcpMap x = _ from Function.update_of_ne hx ..] at hp
      exact .inr hp
  have hlen : (m.addTcp fd).pairs.length = m.pairs.length + 1 := List.length_append
  refine ⟨fun x hx => ?_, ht.inj, ht.old, fun x p hp => ?_, fun x y p hx hy => ?_⟩
  · have hxne : x ≠ fd := by
      rintro rfl
      rw [show m.fds x = none from hx] at hfd
      cases hfd
    rw [show (m.addTcp fd).tcpMap x = _ from Function.update_of_ne hxne ..]
    exact ht.free x hx
  · rw [hlen]
    rcases hmem x p hp with ⟨-, rfl⟩ | hold
    · exact Nat.lt_succ_self _
    · exact (ht.bound x p hold).trans (Nat.lt_succ_self _)
  · rcases hmem x p hx with ⟨rfl, hp⟩ | hx' <;> rcases hmem y p hy with ⟨rfl, hp'⟩ | hy'
    · rfl
    · exact absurd hp (ht.bound y p hy').ne
    · exact absurd hp' (ht.bound x p hx').ne
    · exact ht.apart x y p hx' hy'

/-- `HASH_DEL`. -/
theorem Tables.erase (ht : Tables m) (fd p : Nat) :
    Tables { m with tcpMap := Function.update m.tcpMap fd ((m.tcpMap fd).erase p) } := by
  have hsub : ∀ x q, q ∈ Function.update m.tcpMap fd ((m.tcpMap fd).erase p) x → q ∈ m.tcpMap x := by
    intro x q hq
    rcases eq_or_ne x fd with rfl | hx
    · rw [Function.update_self] at hq
      exact List.mem_of_mem_erase hq
    · rw [Function.update_of_ne hx] at hq
      exact hq
  refine ⟨fun x hx => ?_, ht.inj, ht.old, fun x q hq => ht.bound x q (hsub x q hq),
    fun x y q hx hy => ht.apart x y q (hsub x q hx) (hsub y q hy)⟩
  refine List.eq_nil_of_subset_nil fun q hq => ?_
  have hq' := hsub x q hq
  rw [ht.free x hx] at hq'
  exact hq'

/-- A descriptor without a pair is closed. -/
theorem Tables.origClose (ht : Tables m) (hmap : m.tcpMap fd = []) :
    Tables { m with fds := Function.update m.fds fd none } := by
  refine ⟨fun x hx => ?_, fun x y d hx hy => ht.inj x y d (update_none_get hx) (update_none_get hy),
    fun x d hx => ht.old x d (update_none_get hx), ht.bound, ht.apart⟩
  rcases eq_or_ne x fd with rfl | hxne
  · exact hmap
  · exact ht.free x ((Function.update_of_ne hxne ..).symm.trans hx)

/-- More pairs, and whatever is in them. -/
theorem Tables.setPairs {pairs : List ViewStamp} (ht : Tables m)
    (hlen : m.pairs.length ≤ pairs.length) (log : List Submission) :
    Tables { m with pairs := pairs, log := log } :=
  ⟨ht.free, ht.inj, ht.old, fun x p hp => Nat.lt_of_lt_of_le (ht.bound x p hp) hlen, ht.apart⟩

end Tables

end RdmaPaxos.EvMgr
