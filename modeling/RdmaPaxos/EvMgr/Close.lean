/-
  RdmaPaxos.EvMgr.Close
  ─────────────────────
  **THE NOP BEHIND A CLOSE.**

  `mgr_on_close` submits a `P_CLOSE` and, when that has returned, a `P_NOP`
  ("only for sending the close() consensus result to the replicas").  The second
  call is made after the first has returned, so its entry carries a commit point
  that covers the first (`Carries`), and a follower that is through with the NOP
  has passed the close to `update_state`.

  §1  what a hook has submitted, against where it is;
  §2  the first of two requests of a hook is covered by the second;
  §3  the theorem, and a run in which a returned request is not covered.
-/
import RdmaPaxos.Consensus.Propagation
import RdmaPaxos.EvMgr.HookSteps

namespace RdmaPaxos.EvMgr

open RdmaPaxos.Run

/-! ## §1. The requests of a hook. -/

/-- Call `id` was made without a payload. -/
def Bare (w : World) (id : Nat) : Prop := ∃ q, w.requests[id]? = some q ∧ q.data.size = 0

/-- A call keeps its request. -/
theorem Bare.preserved {w w' : World} {a : Action} {id : Nat} (h : Bare w id)
    (hstep : RdmaPaxos.step w a = some w') : Bare w' id := by
  obtain ⟨q, hq, hsize⟩ := h
  refine ⟨q, ?_, hsize⟩
  by_cases hsubmit : ∃ i r, a = .submit i r
  · obtain ⟨i, r, rfl⟩ := hsubmit
    cases step_cases hstep with
    | submit =>
        have hlt := (List.getElem?_eq_some_iff.mp hq).1
        show (List.map Call.req (_ ++ [_]))[id]? = _
        rw [List.map_append]
        exact (List.getElem?_append_left hlt).trans hq
  · have hcalls := congrArg (List.map Prod.fst)
      (calls_kept hstep fun i r heq => hsubmit ⟨i, r, heq⟩)
    rw [List.map_map, List.map_map] at hcalls
    exact (congrArg (·[id]?) hcalls).trans hq

/-- A request without a payload is submitted. -/
theorem Bare.submit {w w' : World} {l : Nat} {q : Request}
    (hstep : RdmaPaxos.step w (.submit l q) = some w') (hsize : q.data.size = 0) :
    Bare w' w.calls.length := by
  cases step_cases hstep with
  | submit =>
      refine ⟨q, requests_get (c := (w.nodes l).newCall l q) ?_, hsize⟩
      exact List.getElem?_concat_length

/-- A hook has submitted nothing, one request, or two; the second only after the
first has returned, and that was one without a payload. -/
def CallsOk (w : World) (calls : List Nat) : HookPc → Prop
  | .send _ _ => calls = [] ∨ ∃ id, calls = [id] ∧ w.Returned id ∧ Bare w id
  | .nop => ∃ id, calls = [id] ∧ w.Returned id ∧ Bare w id
  | .wait id .nop | .wait id (.send _ _) => calls = [id] ∧ Bare w id
  | .wait id .origClose => ∃ first, calls = [first, id]
  | .wait id .done => calls = [id] ∨ ∃ first, calls = [first, id]
  | .wait _ _ => False
  | .origClose | .done => True
  | _ => calls = []

/-- Calls that have returned have returned. -/
theorem CallsOk.mono {w w' : World} {calls : List Nat} {pc : HookPc}
    (hret : ∀ id, w.Returned id → w'.Returned id) (hbare : ∀ id, Bare w id → Bare w' id)
    (h : CallsOk w calls pc) : CallsOk w' calls pc := by
  unfold CallsOk at h ⊢
  split at h
  next =>
    rcases h with h | ⟨id, hcalls, h⟩
    · exact .inl h
    · exact .inr ⟨id, hcalls, hret id h.1, hbare id h.2⟩
  next =>
    obtain ⟨id, hcalls, h⟩ := h
    exact ⟨id, hcalls, hret id h.1, hbare id h.2⟩
  next id => exact ⟨h.1, hbare id h.2⟩
  next id _ _ => exact ⟨h.1, hbare id h.2⟩
  all_goals exact h

/-- A hook goes on without submitting. -/
theorem CallsOk.localStep {w : World} {m m' : Mgr} {h : Nat} {k : Hook}
    (hok : CallsOk w k.calls k.pc) (hfail : ∀ c ∈ w.calls, c.pc ≠ .failed)
    (hstep : LocalStep m (World.hasReturned w) h k m') :
    ∃ pc, m'.hooks = m.hooks.set h { k with pc := pc } ∧ CallsOk w k.calls pc := by
  cases hstep with
  | add hpc | proposed hpc | outputFind hpc | delOutput hpc | closeFind hpc | closeDel hpc
  | udpNew hpc | udpAdd hpc =>
      rw [hpc] at hok
      exact ⟨_, rfl, hok⟩
  | find hpc | udpFind hpc =>
      rw [hpc] at hok
      exact ⟨_, rfl, .inl hok⟩
  | stored | unmapped | origClose => exact ⟨_, rfl, trivial⟩
  | @returns id next hpc hret =>
      refine ⟨next, rfl, ?_⟩
      rw [hpc] at hok
      -- `rsm_op` returns after a failed store too, which `hfail` excludes
      have hdone : w.Returned id := by
        unfold World.hasReturned at hret
        split at hret
        next c hc =>
          rcases of_decide_eq_true hret with hdone | hbad
          · exact ⟨c, hc, hdone⟩
          · exact absurd hbad (hfail c (List.mem_of_getElem? hc))
        next => cases hret
      cases next with
      | nop => exact ⟨id, hok.1, hdone, hok.2⟩
      | send => exact .inr ⟨id, hok.1, hdone, hok.2⟩
      | origClose | done => trivial
      | _ => exact hok.elim

/-- A hook that submits has submitted nothing, or something that has returned. -/
theorem CallsOk.ready {w : World} {m : Mgr} {calls : List Nat} {pc : HookPc} {q : Request}
    (hok : CallsOk w calls pc) (hq : m.request pc = some q) :
    calls = [] ∨ ∃ first, calls = [first] ∧ w.Returned first ∧ Bare w first := by
  cases pc with
  | connect | output | close | udpConnect => exact .inl hok
  | send => exact hok
  | nop => exact .inr hok
  | _ => cases hq

/-- The hook submits. -/
theorem CallsOk.submit {w w' : World} {m : Mgr} {calls : List Nat} {pc : HookPc} {q : Request}
    (hok : CallsOk w calls pc) (hq : m.request pc = some q) {id : Nat}
    (hbare : q.data.size = 0 → Bare w' id) :
    CallsOk w' (calls ++ [id]) (.wait id pc.returnsTo) := by
  cases pc with
  | connect | output =>
      obtain rfl : calls = [] := hok
      exact .inl rfl
  | close | udpConnect =>
      obtain rfl : calls = [] := hok
      cases hq
      exact ⟨rfl, hbare rfl⟩
  | send =>
      rcases hok with rfl | ⟨first, rfl, -⟩
      · exact .inl rfl
      · exact .inr ⟨first, rfl⟩
  | nop =>
      obtain ⟨first, rfl, -⟩ := hok
      exact ⟨first, rfl⟩
  | _ => cases hq

/-! ## §2. The second request covers the first. -/

section Run
variable {l : Nat} {s s' : Sys} {e : Event}

/-- Every hook is where its requests say. -/
def Sys.HooksOk (s : Sys) : Prop := ∀ k ∈ s.mgr.hooks, CallsOk s.world k.calls k.pc

/-- Two requests of one hook, one after the other, are in relation `C`. -/
def Sys.Consecutive (C : Nat → Nat → World → Prop) (s : Sys) : Prop :=
  ∀ k ∈ s.mgr.hooks, ∀ first second, k.calls = [first, second] → C first second s.world

/-- A step of the whole: nothing is submitted and no hook gets another request, or
one hook submits. -/
theorem Sys.Stepped.hook_cases (h : Sys.Stepped l s e s')
    (hfail : ∀ c ∈ s.world.calls, c.pc ≠ .failed) (hok : s.HooksOk) :
    (∀ k ∈ s'.mgr.hooks, CallsOk s.world k.calls k.pc
        ∧ (k.calls = [] ∨ ∃ k₀ ∈ s.mgr.hooks, k.calls = k₀.calls))
      ∨ ∃ n k q, s.mgr.hooks[n]? = some k ∧ s.mgr.request k.pc = some q
        ∧ s.action l e = some (.submit l q) ∧ RdmaPaxos.step s.world (.submit l q) = some s'.world
        ∧ s'.mgr.hooks = s.mgr.hooks.set n { k with
            calls := k.calls ++ [s.world.calls.length]
            pc := .wait s.world.calls.length k.pc.returnsTo } := by
  have hsame : s'.mgr.hooks = s.mgr.hooks → ∀ k ∈ s'.mgr.hooks, CallsOk s.world k.calls k.pc
      ∧ (k.calls = [] ∨ ∃ k₀ ∈ s.mgr.hooks, k.calls = k₀.calls) := by
    intro heq k hk
    rw [heq] at hk
    exact ⟨hok k hk, .inr ⟨k, hk, rfl⟩⟩
  -- a new hook starts with no requests
  have henter : ∀ {m : Mgr} {fd : Nat} {src : Source} {pc : HookPc}, s'.mgr = m.enter fd src pc →
      m.hooks = s.mgr.hooks → CallsOk s.world [] pc → ∀ k ∈ s'.mgr.hooks, CallsOk s.world k.calls k.pc
        ∧ (k.calls = [] ∨ ∃ k₀ ∈ s.mgr.hooks, k.calls = k₀.calls) := by
    intro m fd src pc heq hm hpc k hk
    rw [heq] at hk
    rcases List.mem_append.mp (show k ∈ m.hooks ++ [_] from hk) with hold | hlast
    · rw [hm] at hold
      exact ⟨hok k hold, .inr ⟨k, hold, rfl⟩⟩
    · obtain rfl := List.mem_singleton.mp hlast
      exact ⟨hpc, .inl rfl⟩
  have hmgr := mgrStep_cases h.mgr
  generalize hm : s'.mgr = m' at hmgr hsame henter ⊢
  cases hmgr with
  | restart => exact .inl fun k hk => by cases hk
  | start | world | replica | replicaAccept | replicaClose => exact .inl (hsame rfl)
  | socket hopen =>
      obtain ⟨-, rfl⟩ := openSock_eq hopen
      exact .inl (hsame rfl)
  | accept hopen =>
      obtain ⟨-, rfl⟩ := openSock_eq hopen
      exact .inl (henter rfl rfl rfl)
  | read | recvfrom | write | close => exact .inl (henter rfl rfl rfl)
  | @hook n k _ hk hq hlocal =>
      refine .inl fun k' hk' => ?_
      have hmem := List.mem_of_getElem? hk
      obtain ⟨pc, hhooks, hpc⟩ := (hok k hmem).localStep hfail hlocal
      rw [hhooks] at hk'
      rcases List.mem_or_eq_of_mem_set hk' with hold | rfl
      · exact ⟨hok k' hold, .inr ⟨k', hold, rfl⟩⟩
      · exact ⟨hpc, .inr ⟨k, hmem, rfl⟩⟩
  | @submit n k q hk hq =>
      have hact : s.action l (.hook n) = some (.submit l q) := by
        simp only [Sys.action, hk, hq, Option.bind_some, Option.map_some]
      have hw := h.world
      rw [hact] at hw
      exact .inr ⟨n, k, q, hk, hq, hact, hw, rfl⟩

/-- The group takes a step, or stands still. -/
theorem Sys.Stepped.returned (h : Sys.Stepped l s e s') {id : Nat} (hret : s.world.Returned id) :
    s'.world.Returned id :=
  h.world_rule (W := (·.Returned id)) hret fun _ _ hs => hret.preserved hs

theorem Sys.Stepped.bare (h : Sys.Stepped l s e s') {id : Nat} (hbare : Bare s.world id) :
    Bare s'.world id :=
  h.world_rule (W := (Bare · id)) hbare fun _ _ hs => hbare.preserved hs

/-- Every event keeps the hooks where their requests say. -/
theorem Sys.HooksOk.preserved (hok : s.HooksOk) (h : Sys.Stepped l s e s')
    (hfail : ∀ c ∈ s.world.calls, c.pc ≠ .failed) : s'.HooksOk := by
  intro k hk
  rcases h.hook_cases hfail hok with hkeep | ⟨n, k₀, q, hk₀, hq, -, hw, hhooks⟩
  · exact (hkeep k hk).1.mono (fun _ => h.returned) fun _ => h.bare
  · rw [hhooks] at hk
    rcases List.mem_or_eq_of_mem_set hk with hold | rfl
    · exact (hok k hold).mono (fun _ => h.returned) fun _ => h.bare
    · exact (hok k₀ (List.mem_of_getElem? hk₀)).submit hq (.submit hw)

/-- **The rule for two requests of one hook**: a relation that every step keeps, and
that a request without payload is in with every later one once it has returned. -/
theorem Sys.Consecutive.preserved {C : Nat → Nat → World → Prop} (hC : s.Consecutive C)
    (hok : s.HooksOk) (h : Sys.Stepped l s e s') (hfail : ∀ c ∈ s.world.calls, c.pc ≠ .failed)
    (hkeep : ∀ first second, C first second s.world → C first second s'.world)
    (hnew : ∀ first q, s.world.Returned first → Bare s.world first →
      s.action l e = some (.submit l q) →
      RdmaPaxos.step s.world (.submit l q) = some s'.world →
      C first s.world.calls.length s'.world) : s'.Consecutive C := by
  intro k hk first second hcalls
  rcases h.hook_cases hfail hok with hold | ⟨n, k₀, q, hk₀, hq, hact, hw, hhooks⟩
  · rcases (hold k hk).2 with hnil | ⟨k₀, hk₀, heq⟩
    · rw [hnil] at hcalls
      cases hcalls
    · exact hkeep first second (hC k₀ hk₀ first second (heq.symm.trans hcalls))
  · rw [hhooks] at hk
    rcases List.mem_or_eq_of_mem_set hk with hmem | rfl
    · exact hkeep first second (hC k hmem first second hcalls)
    · -- the hook that submits: its first request had returned
      rcases (hok k₀ (List.mem_of_getElem? hk₀)).ready hq with hnil | ⟨one, hone, hret, hbare⟩
      · rw [hnil] at hcalls
        cases hcalls
      · rw [hone] at hcalls
        cases hcalls
        exact hnew first q hret hbare hact hw

/-- **Two requests of one hook, in every state of every run** in which the group
keeps `W`. -/
theorem consecutive_reaches {n : Nat} {ok : World → Action → Prop} {W : World → Prop}
    {C : Nat → Nat → World → Prop} (h₀ : W (World.booted n l))
    (hW : ∀ w a w', W w → ok w a → RdmaPaxos.step w a = some w' → W w')
    (hfail : ∀ w, W w → ∀ c ∈ w.calls, c.pc ≠ .failed)
    (hkeep : ∀ w a w' first second, W w → ok w a → RdmaPaxos.step w a = some w' →
      C first second w → C first second w')
    (hnew : ∀ w q w' first, W w → ok w (.submit l q) →
      RdmaPaxos.step w (.submit l q) = some w' → w.Returned first → Bare w first →
      C first w.calls.length w')
    (h : Reaches (Sys.step l) (Lift l ok) (Sys.booted n l) s) :
    W s.world ∧ s.HooksOk ∧ s.Consecutive C := by
  have hnone : ∀ k, k ∉ (Sys.booted n l).mgr.hooks := fun k hk => by cases hk
  refine h.invariant (I := fun s => W s.world ∧ s.HooksOk ∧ s.Consecutive C) ?_ ?_
  · exact ⟨h₀, fun k hk => absurd hk (hnone k), fun k hk => absurd hk (hnone k)⟩
  rintro s e s' ⟨hw, hhooks, hC⟩ hok hs
  have hstep := Sys.stepped hs
  refine ⟨?_, hhooks.preserved hstep (hfail _ hw), hC.preserved hhooks hstep (hfail _ hw) ?_ ?_⟩
  · exact hstep.world_rule hw fun a ha hsw => hW _ a _ hw (hok a ha) hsw
  · intro first second hold
    exact hstep.world_rule (W := C first second) hold fun a ha hsw =>
      hkeep _ a _ first second hw (hok a ha) hsw hold
  · intro first q hret hbare hact hsw
    exact hnew _ q _ first hw (hok _ hact) hsw hret hbare

end Run

/-! ## §3. The commit point reaches the next request. -/

/-- One process leads, the entries of calls in progress are left alone, and stores
succeed. -/
def Kept (l : Nat) (w : World) (a : Action) : Prop :=
  OneProcess l w a ∧ EntriesKept l w a ∧ StoresSucceed a

/-- The entry of call `k'` carries a commit point that is at least the stamp of
request `k`: in the leader's log once it has been sampled and until the call
returns, and in every copy posted to a follower. -/
structure CommitPointCovers (l k k' : Nat) (w : World) : Prop where
  entry : ∀ c, w.calls[k']? = some c → c.pc.live = true → 1 ≤ c.pc.stage →
    0 ≤ viewStampComp (readVs (w.nodes l).log.entries (c.entry + offCanbeExed)) (stampOf k)
  copies : ∀ i e, w.entryWrites k' i = some e →
    0 ≤ viewStampComp (readVs e.byte offCanbeExed) (stampOf k)

/-- Request `k` returned in `w₁`; then, with any steps in between, the next call
was made and the group came to `w`. -/
def Later (l : Nat) (ok : World → Action → Prop) (k : Nat) (w₁ w : World) : Prop :=
  w₁.Returned k ∧ ∃ q w₂, ok w₁ (.submit l q) ∧ step w₁ (.submit l q) = some w₂
    ∧ Reaches step ok w₂ w

/-- What holds throughout a run of kind `Kept`. -/
structure KeptInv (l : Nat) (w : World) : Prop where
  tickets : Tickets l w
  begun : Begun l w
  noneFailed : ∀ c ∈ w.calls, c.pc ≠ .failed

section Kept
variable {n l k k' : Nat} {w w' : World} {a : Action}

theorem KeptInv.booted (hl : l < n) : KeptInv l (World.booted n l) :=
  ⟨.booted hl, .booted hl, fun c hc => by cases hc⟩

/-- **The step lemma.** -/
theorem KeptInv.preserved (h : KeptInv l w) (hok : Kept l w a) (hstep : step w a = some w') :
    KeptInv l w' := by
  have ht := h.tickets.preserved hok.1 hok.2.1 hstep
  exact ⟨ht, h.begun.preserved h.tickets ht hok.1 hstep, noneFailed_step h.noneFailed hok.2.2 hstep⟩

/-- A commit point that counts request `k` is at least its stamp. -/
theorem commitPointCovers_of_carries (h : Carries l k k' w) (ht : Tickets l w) :
    CommitPointCovers l k k' w := by
  have hk : k + 1 < 2 ^ 32 := by
    have hlt := h.committed.2
    have hle := ht.ordered.le
    have hshort := ht.short
    rw [phases, List.length_map] at hle
    omega
  exact ⟨fun c hc hlive hstage => (h.entry c hc hlive hstage).comp hk,
    fun i e he => (h.copies i e he).comp hk⟩

/-- **A request that has returned is covered by every later call**, in every run
that leaves the entries of calls in progress alone; so the NOP of `mgr_on_close`
covers its close, and, as long as no log wraps, a follower that is through with
the NOP has passed the close to `update_state`. -/
theorem commitPoint_propagates (hl : l < n) :
    (∀ k w₁ w, Reaches step (Kept l) (World.booted n l) w₁ → Later l (Kept l) k w₁ w →
      CommitPointCovers l k w₁.calls.length w)
    ∧ (∀ s, Reaches (Sys.step l) (Lift l (Kept l)) (Sys.booted n l) s →
      s.Consecutive fun close nop w => CommitPointCovers l close nop w)
    ∧ ∀ s, Reaches (Sys.step l) (Lift l (OneLap l)) (Sys.booted n l) s →
      s.Consecutive fun close nop w => CommitPointCovers l close nop w
        ∧ ∀ f q, f ≠ l → w.requests[close]? = some q → nop < (w.nodes f).finished →
          ∃ b, (w.nodes f).applied[close]? = some (vstol (stampOf close), some b)
            ∧ Record.decode b = q.record (stampOf close) := by
  refine ⟨?_, ?_, ?_⟩
  · -- two calls, of any threads
    rintro k w₁ w hrun ⟨hret, q, w₂, hok, hsubmit, hrest⟩
    have h₁ := hrun.invariant (I := KeptInv l) (KeptInv.booted hl) fun _ _ _ hinv hok hs =>
      hinv.preserved hok hs
    have h₂ := hrest.invariant (I := fun w => KeptInv l w ∧ Carries l k w₁.calls.length w)
      ⟨h₁.preserved hok hsubmit, Carries.submit h₁.tickets h₁.begun hret hsubmit⟩
      fun _ _ _ hinv hok hs => ⟨hinv.1.preserved hok hs,
        hinv.2.preserved hinv.1.tickets hok.1 hok.2.1 hs⟩
    exact commitPointCovers_of_carries h₂.2 h₂.1.tickets
  · intro s hrun k hk first second hcalls
    -- the two requests of one hook
    obtain ⟨hinv, -, hC⟩ := consecutive_reaches (C := Carries l) (W := KeptInv l)
      (KeptInv.booted hl) (fun _ _ _ hinv hok hs => hinv.preserved hok hs)
      (fun _ hinv => hinv.noneFailed)
      (fun _ _ _ _ _ hinv hok hs hC => hC.preserved hinv.tickets hok.1 hok.2.1 hs)
      (fun _ _ _ _ hinv _ hs hret _ => Carries.submit hinv.tickets hinv.begun hret hs) hrun
    exact commitPointCovers_of_carries (hC k hk first second hcalls) hinv.tickets
  · intro s hrun k hk first second hcalls
    -- the followers as well, as long as no log wraps; the size of an entry without a
    -- payload is in one byte, so no follower takes a part of it for the whole
    obtain ⟨⟨hinv, -⟩, -, hC⟩ := consecutive_reaches
      (C := fun first second w => Carries l first second w ∧ Passed l first second w
        ∧ Bare w first)
      (W := fun w => LapInv Request.Short l w ∧ ∀ c ∈ w.calls, c.pc ≠ .failed)
      ⟨LapInv.booted hl, fun c hc => by cases hc⟩
      (fun _ _ _ hinv hok hs =>
        ⟨hinv.1.preserved hok (.inl fun _ hq => hq) hs, noneFailed_step hinv.2 hok.2.2 hs⟩)
      (fun _ hinv => hinv.2)
      (fun _ _ _ _ _ hinv hok hs hC =>
        ⟨hC.1.preserved hinv.1.tickets hok.1 (hinv.1.kept hok hs) hs,
          hC.2.1.preserved hC.1 hinv.1.inv hs, hC.2.2.preserved hs⟩)
      (fun _ _ _ _ hinv _ hs hret hbare => ⟨Carries.submit hinv.1.tickets hinv.1.begun hret hs,
        Passed.submit hinv.1.inv hs, hbare.preserved hs⟩) hrun
    obtain ⟨hcarries, hpassed, q', hq', hsize⟩ := hC k hk first second hcalls
    refine ⟨commitPointCovers_of_carries hcarries hinv.tickets, fun f q hf hq hfin => ?_⟩
    obtain rfl : q' = q := Option.some.inj (hq'.symm.trans hq)
    obtain ⟨b, hb, hread⟩ := hinv.applied_get hf hq (hpassed f hf hfin)
    exact ⟨b, hb, hread.whole (show q'.data.size + 1 < 256 by omega)⟩

end Kept

/-- Call `id` of the group takes `k` steps. -/
def callRuns (id k : Nat) : List Event := List.replicate k (.world (.call id true))
/-- The replica thread of node `i` takes `k` steps; `socket` would return `fd`. -/
def replicaRuns (i k fd : Nat) : List Event := List.replicate k (.replica i true 0 fd)

/-- Call `id`, which hook `h` is about to make, in a group of two: the entry of
`len` bytes goes to node 1 and comes back acknowledged. -/
def submitRuns (h id len : Nat) (follower : List Event) : List Event :=
  [.hook h] ++ callRuns id 7 ++ [.world (.deliverEntry id 1 len)] ++ follower
    ++ [.world (.deliverAck id 24)] ++ callRuns id 13 ++ [.hook h]

/-- A connection is accepted and closed; node 1 opens it as descriptors 7 and 8. -/
def acceptClose : List Event :=
  [.accept 5, .hook 0] ++ submitRuns 0 0 217 (replicaRuns 1 6 0)
    ++ [.close 5, .hook 1, .hook 1, .hook 1]
    ++ submitRuns 1 1 217 (replicaRuns 1 7 7 ++ [.replicaAccept 1 8] ++ replicaRuns 1 2 0)
    ++ submitRuns 1 2 217 (replicaRuns 1 8 9) ++ [.hook 1]

/-- The requests of the second hook, what node 1 is through with, and the records
it has applied. -/
def closeView (s : Sys) : Option (List Nat) × Nat × List Nat :=
  ((s.mgr.hooks[1]?).map Hook.calls, (s.world.nodes 1).finished,
    (s.world.nodes 1).applied.map Prod.fst)

/-- A close and its NOP. -/
theorem commitPoint_propagates_acceptClose :
    ∃ s, Reaches (Sys.step 0) (Lift 0 (OneLap 0)) (Sys.booted 2 0) s
      ∧ (∃ k ∈ s.mgr.hooks, k.calls = [1, 2]) ∧ 2 < (s.world.nodes 1).finished
      ∧ CommitPointCovers 0 1 2 s.world
      ∧ ∀ q, s.world.requests[1]? = some q →
        ∃ b, (s.world.nodes 1).applied[1]? = some (vstol (stampOf 1), some b)
          ∧ Record.decode b = q.record (stampOf 1) := by
  obtain ⟨s, hrun, hview⟩ := exists_reaches_of_execOk (Sys.step 0) (Lift 0 (OneLap 0))
    (Sys.booted 2 0) acceptClose closeView (v := (some [1, 2], 3, [2 ^ 32 + 1, 2 ^ 32 + 2]))
    (by decide +kernel)
  obtain ⟨k, hk, hcalls⟩ := Option.map_eq_some_iff.mp (congrArg Prod.fst hview)
  have hmem := List.mem_of_getElem? hk
  have hfin : (s.world.nodes 1).finished = 3 := congrArg (fun v => v.2.1) hview
  obtain ⟨hcovers, hclosed⟩ := (commitPoint_propagates (n := 2) (by decide)).2.2 s hrun k hmem 1 2
    hcalls
  exact ⟨s, hrun, ⟨k, hmem, hcalls⟩, by omega, hcovers,
    fun q hq => hclosed 1 q (by decide) hq (by omega)⟩

/-- The fifth call: whether it has just sampled the commit point, and what it got. -/
def fifthCall (w : World) : Option (Bool × ViewStamp) :=
  (w.calls[4]?).map fun c => (decide (c.pc = .fill),
    readVs (w.nodes 0).log.entries (c.entry + offCanbeExed))

/-- The entry of request 2 was overwritten while it waited: it has returned, and the
commit point is 1. -/
theorem commitPoint_fails :
    ¬ ∀ (n l k : Nat) (w₁ w : World), l < n →
      Reaches step (fun w a => OneProcess l w a ∧ StoresSucceed a) (World.booted n l) w₁ →
      Later l (fun w a => OneProcess l w a ∧ StoresSucceed a) k w₁ w →
      CommitPointCovers l k w₁.calls.length w := by
  intro hall
  obtain ⟨w₁, hrun, hdone⟩ := exists_reaches_of_execOk step
    (fun w a => OneProcess 0 w a ∧ StoresSucceed a) (World.booted 2 0) overwritten
    (fun w => (w.calls.length, secondCall w,
      ((step w (.submit 0 zeros)).bind fun w => step w (.call 4 true)).bind fifthCall))
    (v := (4, (1, some (2, true)), some (true, ⟨1, 1⟩))) (by decide +kernel)
  have hlen : w₁.calls.length = 4 := congrArg Prod.fst hdone
  obtain ⟨c, hc, hpair⟩ := Option.map_eq_some_iff.mp (congrArg (fun v => v.2.1.2) hdone)
  have hret : w₁.Returned 1 := ⟨c, hc, of_decide_eq_true (congrArg Prod.snd hpair)⟩
  obtain ⟨w, hw, hcov⟩ := Option.bind_eq_some_iff.mp (congrArg (fun v => v.2.2) hdone)
  obtain ⟨w₂, hsubmit, hcall⟩ := Option.bind_eq_some_iff.mp hw
  -- request 2 has returned; a fifth call is made and samples the commit point
  have hcovers := hall 2 0 1 w₁ w (by decide) hrun ⟨hret, zeros, w₂, ⟨⟨rfl, by omega⟩, trivial⟩,
    hsubmit, .single (a := .call 4 true) ⟨trivial, rfl⟩ hcall⟩
  obtain ⟨d, hd, hfifth⟩ := Option.map_eq_some_iff.mp hcov
  have hpc : d.pc = .fill := of_decide_eq_true (congrArg Prod.fst hfifth)
  have hstamp : readVs (w.nodes 0).log.entries (d.entry + offCanbeExed) = ⟨1, 1⟩ :=
    congrArg Prod.snd hfifth
  -- it has sampled (1, 1), which does not cover (1, 2)
  rw [hlen] at hcovers
  have hle := hcovers.entry d hd (by rw [hpc]; rfl) (by rw [hpc]; decide)
  rw [hstamp] at hle
  exact absurd hle (by decide)

end RdmaPaxos.EvMgr
