/-
  RdmaPaxos.Checkpoint.Guard
  ──────────────────────────
  **THE CHECKPOINTING SCRIPT AND THE PROCESS** (`inner_checkpoint` and
  `inner_restore` in `guard.py`).

  The script sends `disconnect`, is told `OK` as soon as a thread has been
  started, sleeps one second and dumps the process, whatever has become of the
  request.  The second is not measured against anything in the process, so any
  number of its steps fit in.

    • `dumpsDisconnected_of_inTime` — if the request has been approved and its
      shutdown is over when the sleep ends, and nobody else sends commands
      meanwhile, the process is dumped, killed and restored only while it is
      disconnected;
    • `dumpsDisconnected_fails` — a refused request is dumped all the same.
-/
import RdmaPaxos.Checkpoint.Handshake

namespace RdmaPaxos.Checkpoint

open RdmaPaxos.Run

/-! ## §1. The script. -/

/-- Where `inner_checkpoint` is, with `inner_restore` at its end. -/
inductive GuardPc where
  | idle
  /-- about to send `disconnect` -/
  | send
  | sleep
  | resetPid
  /-- about to generate the list of open files -/
  | fdIndex
  /-- about to issue `criu dump` -/
  | dump
  /-- about to pack, compress and distribute the image -/
  | pack
  /-- in `inner_restore`, about to kill what is left of the process -/
  | kill
  /-- about to issue `criu restore` -/
  | restore
  /-- about to send `reconnect` -/
  | reconnect
  deriving Repr, DecidableEq

/-- A command issued against the process: what had become of the disconnect
thread then, and whether `reconnect_inner` had run since its shutdown ended. -/
structure Issued where
  thread : Option DiscPc
  relaunched : Bool
  deriving Repr, DecidableEq

/-- The machine: the process, the script of the guard, and what it has asked CRIU for. -/
structure Host where
  proc : State
  /-- the process runs (it does not between a dump and its restoration) -/
  alive : Bool
  guard : GuardPc
  /-- the thread the script's command started, if it was delivered -/
  thread : Option Nat
  /-- `reconnect_inner` has run since the shutdown of that thread ended -/
  relaunched : Bool
  /-- the dump, kill and restore commands issued so far -/
  issued : List Issued
  deriving Repr, DecidableEq

/-- A process with its connections, before the first command. -/
def Host.start (connections : Nat) : Host where
  proc := initial connections
  alive := true
  guard := .idle
  thread := none
  relaunched := false
  issued := []

/-- The steps of the machine. -/
inductive HostAction where
  /-- a step of the process, or a command from elsewhere -/
  | proc (a : Action)
  /-- the script's next step; `ok` says whether it succeeds -/
  | guard (ok : Bool)
  deriving Repr, DecidableEq

/-- The disconnect thread of the script. -/
def Host.discThread (g : Host) : Option DiscPc := g.thread.bind fun t => g.proc.threads[t]?

/-- A command of CRIU is issued; what matters is noted with it. -/
def Host.issue (g : Host) : Host :=
  { g with issued := g.issued ++ [⟨g.discThread, g.relaunched⟩] }

/-- Bookkeeping of `relaunched` along a step of the process. -/
def Host.relaunchedAfter (g : Host) : Action → Bool
  | .thread i _ => if g.thread = some i ∧ g.discThread = some .running then false else g.relaunched
  | .replica => if g.proc.replica = .relaunch then true else g.relaunched
  | _ => g.relaunched

/-- The script's next step. -/
def Host.guardStep (g : Host) (ok : Bool) : Option Host :=
  match g.guard with
  | .idle => some { g with guard := if ok then .send else .idle }
  | .send =>
      -- a failure to connect is printed and forgotten
      if ok ∧ g.alive then
        (step g.proc .disconnect).map fun p =>
          { g with proc := p, guard := .sleep, thread := some g.proc.threads.length }
      else some { g with guard := .sleep, thread := none }
  | .sleep => some { g with guard := .resetPid }
  | .resetPid => some { g with guard := .fdIndex }
  | .fdIndex => some { g with guard := if ok then .dump else .idle }
  | .dump =>
      -- a dumped process is gone
      some { g.issue with
        alive := if ok then false else g.alive
        guard := if ok then .pack else .idle }
  | .pack => some { g with guard := if ok then .kill else .idle }
  | .kill => some { g.issue with alive := false, guard := .restore }
  | .restore => some { g.issue with alive := ok, guard := .reconnect }
  | .reconnect =>
      if ok ∧ g.alive then
        (step g.proc .reconnect).map fun p => { g with proc := p, guard := .idle }
      else some { g with guard := .idle }

/-- One step; the process takes none while it is dumped. -/
def Host.step (g : Host) : HostAction → Option Host
  | .proc a =>
      if g.alive then
        (Checkpoint.step g.proc a).map fun p =>
          { g with proc := p, relaunched := g.relaunchedAfter a }
      else none
  | .guard ok => g.guardStep ok

/-! ## §2. Dumping only while disconnected. -/

/-- The request was approved, its shutdown has succeeded, and no reconnect has
happened since. -/
def Issued.Disconnected (c : Issued) : Prop :=
  (∃ ret, c.thread = some (.done (.shutDown ret)) ∧ ret ≠ -1) ∧ c.relaunched = false

/-- Every command of CRIU found the process disconnected. -/
def DumpsDisconnected (g : Host) : Prop := ∀ c ∈ g.issued, c.Disconnected

/-- The sleep is long enough and nobody interferes: commands from elsewhere come
only while the script is idle, and are orderly; the script starts when no
disconnect is running; and its own request has been approved and carried out
when its sleep ends. -/
def InTime (g : Host) : HostAction → Prop
  | .proc .disconnect => g.guard = .idle ∧ Orderly g.proc .disconnect
  | .proc .reconnect => g.guard = .idle ∧ Orderly g.proc .reconnect
  | .proc _ => True
  | .guard ok =>
      match g.guard with
      | .send => ok = true ∧ g.alive = true ∧ Orderly g.proc .disconnect
      | .sleep =>
          match g.discThread with
          | some (.done (.shutDown ret)) => ret ≠ -1
          | _ => False
      | _ => True

instance : ∀ (g : Host) (a : HostAction), Decidable (InTime g a)
  | g, .proc .disconnect =>
      inferInstanceAs (Decidable (g.guard = .idle ∧ Orderly g.proc .disconnect))
  | g, .proc .reconnect =>
      inferInstanceAs (Decidable (g.guard = .idle ∧ Orderly g.proc .reconnect))
  | _, .proc (.thread _ _) => inferInstanceAs (Decidable True)
  | _, .proc (.arrive _) => inferInstanceAs (Decidable True)
  | _, .proc .replica => inferInstanceAs (Decidable True)
  | _, .proc (.serve _) => inferInstanceAs (Decidable True)
  | g, .guard ok => by
      unfold InTime
      cases g.guard with
      | send => exact inferInstanceAs (Decidable (_ ∧ _ ∧ _))
      | sleep =>
          simp only
          split
          · exact inferInstanceAs (Decidable (_ ≠ _))
          · exact inferInstanceAs (Decidable False)
      | idle | resetPid | fdIndex | dump | pack | kill | restore | reconnect =>
          exact inferInstanceAs (Decidable True)

/-! ## §3. The invariant. -/

/-- The script is between its disconnect and its reconnect command. -/
def GuardPc.inside : GuardPc → Bool
  | .idle => false
  | .send => false
  | _ => true

/-- The script's sleep is over. -/
def GuardPc.awake : GuardPc → Bool
  | .idle => false
  | .send => false
  | .sleep => false
  | _ => true

/-- The script's thread is the last one; once its shutdown has returned, the
replica thread is parked and has not relaunched. -/
def Window (g : Host) : Prop :=
  ∃ olds pc, g.proc.threads = olds ++ [pc] ∧ g.thread = some olds.length
    ∧ (∀ ret, pc = .done (.shutDown ret) → g.proc.Parked ∧ g.relaunched = false)
    ∧ (∀ ret, pc = .clear ret → g.relaunched = false)

/-- What holds in every state of the machine. -/
structure HostInv (g : Host) : Prop where
  proc : Inv g.proc
  window : g.guard.inside = true → Window g
  awake : g.guard.awake = true → ∃ ret, g.discThread = some (.done (.shutDown ret)) ∧ ret ≠ -1
  issued : DumpsDisconnected g

/-- Before the first command. -/
theorem HostInv.start (k : Nat) : HostInv (Host.start k) where
  proc := Inv.initial k
  window := by intro h; cases h
  awake := by intro h; cases h
  issued := by intro c hc; cases hc

/-- The script's thread is the last one. -/
theorem Window.discThread {g : Host} {olds : List DiscPc} {pc : DiscPc}
    (h₁ : g.proc.threads = olds ++ [pc]) (h₂ : g.thread = some olds.length) :
    g.discThread = some pc := by
  unfold Host.discThread
  rw [h₂, h₁]
  simp

/-- Awake, the process is parked for the script. -/
theorem HostInv.parked {g : Host} (h : HostInv g) (hawake : g.guard.awake = true)
    (hinside : g.guard.inside = true) :
    g.proc.Parked ∧ g.relaunched = false ∧ ∀ t ∈ g.proc.threads, t.isDone = true := by
  obtain ⟨olds, pc, hth, ht, hshut, -⟩ := h.window hinside
  obtain ⟨ret, hdisc, -⟩ := h.awake hawake
  have hpc : pc = .done (.shutDown ret) :=
    Option.some.inj ((Window.discThread hth ht).symm.trans hdisc)
  obtain ⟨hpark, hrel⟩ := hshut ret hpc
  refine ⟨hpark, hrel, ?_⟩
  rcases h.proc.threads with ⟨hnil, -⟩ | ⟨olds', pc', heq, hdone, -⟩
  · rw [hnil]
    intro t hmem
    cases hmem
  · obtain ⟨-, hlast⟩ := List.append_inj' (hth.symm.trans heq) rfl
    cases hlast
    rw [heq]
    intro t hmem
    rcases List.mem_append.1 hmem with hmem | hmem
    · exact hdone t hmem
    · rw [List.mem_singleton.1 hmem, hpc]
      rfl

/-- A parked replica thread stays parked without commands. -/
theorem State.Parked.stays {s s' : State} {a : Action} (hp : s.Parked) (hs : step s a = some s')
    (ha : a = .replica ∨ (∃ k, a = .arrive k) ∨ ∃ k, a = .serve k) : s' = s := by
  obtain ⟨hr, hf, hpend⟩ := hp
  rcases ha with rfl | ⟨k, rfl⟩ | ⟨k, rfl⟩
  · simp only [step, State.replicaStep, hr, hf, Bool.false_eq_true, if_false] at hs
    rw [← Option.some.inj hs, ← hr, ← hf]
  · simp only [step, hpend, List.getElem?_nil] at hs
    cases hs
  · simp only [step, hr] at hs
    cases hs

/-- What a step of the process leaves to the script. -/
theorem Window.keep {g : Host} {p : State} {a : Action} (h : Window g) (hinv : Inv g.proc)
    (hs : step g.proc a = some p)
    (ha : a = .replica ∨ (∃ k, a = .arrive k) ∨ ∃ k, a = .serve k)
    (hrel : g.proc.Parked → g.relaunchedAfter a = g.relaunched) :
    Window { g with proc := p, relaunched := g.relaunchedAfter a } := by
  obtain ⟨olds, pc, hth, ht, hshut, hclear⟩ := h
  refine ⟨olds, pc, (step_threads hs ha).trans hth, ht, ?_, ?_⟩
  · intro ret hpc
    obtain ⟨hpark, hfalse⟩ := hshut ret hpc
    rw [hrel hpark, hpark.stays hs ha]
    exact ⟨hpark, hfalse⟩
  · intro ret hpc
    have hlast : g.proc.threads[olds.length]? = some (.clear ret) := by
      rw [hth, hpc]
      simp
    obtain ⟨-, -, -, ⟨-, hpark, -⟩, -⟩ := hinv.last hlast rfl
    show g.relaunchedAfter a = false
    rw [hrel hpark]
    exact hclear ret hpc

/-- A step of the script's thread. -/
theorem Window.thread {g : Host} {p : State} {i : Nat} {ret : Int} (h : Window g) (hinv : Inv g.proc)
    (hs : step g.proc (.thread i ret) = some p) :
    Window { g with proc := p, relaunched := g.relaunchedAfter (.thread i ret) } := by
  obtain ⟨olds, pc, hth, ht, hshut, hclear⟩ := h
  simp only [step] at hs
  cases hi : g.proc.threads[i]? with
  | none =>
      rw [hi] at hs
      cases hs
  | some pc' =>
      rw [hi] at hs
      cases hdone : pc'.isDone with
      | true =>
          cases pc' with
          | done o => cases hs
          | test | setRequest | spin | testApprove | shutdown | running | clear | testNo => cases hdone
      | false =>
          -- only the last thread still runs
          obtain ⟨olds', heq, -, hok, hset, rfl⟩ := hinv.last hi hdone
          obtain ⟨rfl, hlast⟩ := List.append_inj' (hth.symm.trans heq) rfl
          cases hlast
          have hdisc : g.discThread = some pc := Window.discThread hth ht
          cases pc with
          | running =>
              have hrel : g.relaunchedAfter (.thread olds.length ret) = false := if_pos ⟨ht, hdisc⟩
              cases hs
              refine ⟨olds, _, hset _, ht, ?_, ?_⟩
              · intro ret' _
                exact ⟨hok.2.1, hrel⟩
              · intro ret' _
                exact hrel
          | clear r =>
              have hrel : g.relaunchedAfter (.thread olds.length ret) = g.relaunched :=
                if_neg fun h => by rw [hdisc] at h; cases h.2
              cases hs
              refine ⟨olds, _, hset _, ht, ?_, ?_⟩
              · intro ret' _
                exact ⟨hok.2.1, hrel.trans (hclear r rfl)⟩
              · intro ret' hpc
                cases hpc
          | done o => cases hs
          | test =>
              cases hs
              refine ⟨olds, _, hset _, ht, ?_, ?_⟩ <;> (intro ret' hpc; split at hpc <;> cases hpc)
          | setRequest =>
              cases hs
              refine ⟨olds, _, hset _, ht, ?_, ?_⟩ <;> (intro ret' hpc; cases hpc)
          | spin =>
              cases hs
              refine ⟨olds, _, hset _, ht, ?_, ?_⟩ <;> (intro ret' hpc; split at hpc <;> cases hpc)
          | testApprove =>
              cases hs
              refine ⟨olds, _, hset _, ht, ?_, ?_⟩ <;> (intro ret' hpc; split at hpc <;> cases hpc)
          | shutdown =>
              cases hs
              refine ⟨olds, _, hset _, ht, ?_, ?_⟩ <;> (intro ret' hpc; cases hpc)
          | testNo =>
              cases hs
              refine ⟨olds, _, hset _, ht, ?_, ?_⟩ <;> (intro ret' hpc; split at hpc <;> cases hpc)

/-- The process takes a step, or gets a command from elsewhere. -/
theorem HostInv.procStep {g : Host} (h : HostInv g) {a : Action} {p : State}
    (hok : InTime g (.proc a)) (hs : step g.proc a = some p) :
    HostInv { g with proc := p, relaunched := g.relaunchedAfter a } := by
  have horderly : Orderly g.proc a := by
    cases a with
    | disconnect => exact hok.2
    | reconnect => exact hok.2
    | thread | arrive | replica | serve => trivial
  refine
    { proc := h.proc.preserved horderly hs
      window := ?_
      awake := ?_
      issued := h.issued }
  · intro hin
    have hin : g.guard.inside = true := hin
    have hw := h.window hin
    cases a with
    | disconnect => rw [hok.1] at hin; cases hin
    | reconnect => rw [hok.1] at hin; cases hin
    | thread i ret => exact hw.thread h.proc hs
    | arrive k => exact hw.keep h.proc hs (.inr (.inl ⟨k, rfl⟩)) fun _ => rfl
    | replica =>
        -- a parked replica thread spins on `restore_flag`; it does not relaunch
        refine hw.keep h.proc hs (.inl rfl) fun hpark => ?_
        exact if_neg fun hr => by rw [hpark.1] at hr; cases hr
    | serve k => exact hw.keep h.proc hs (.inr (.inr ⟨k, rfl⟩)) fun _ => rfl
  · intro haw
    obtain ⟨ret, hd, hne⟩ := h.awake haw
    refine ⟨ret, ?_, hne⟩
    obtain ⟨t, ht, hget⟩ := Option.bind_eq_some_iff.1 hd
    exact Option.bind_eq_some_iff.2 ⟨t, ht, step_done hget hs⟩

/-- What is issued while the script is awake is issued against a disconnected
process. -/
theorem HostInv.issue {g : Host} (h : HostInv g) (hawake : g.guard.awake = true)
    (hinside : g.guard.inside = true) : DumpsDisconnected g.issue := by
  intro c hc
  rcases List.mem_append.1 hc with hc | hc
  · exact h.issued c hc
  · cases List.mem_singleton.1 hc
    exact ⟨h.awake hawake, (h.parked hawake hinside).2.1⟩

/-- A step of the script that leaves the process as it is. -/
theorem HostInv.moveGuard {g g' : Host} (h : HostInv g) (hproc : g'.proc = g.proc)
    (hthread : g'.thread = g.thread) (hrel : g'.relaunched = g.relaunched)
    (hin : g'.guard.inside = true → g.guard.inside = true)
    (haw : g'.guard.awake = true → ∃ ret, g.discThread = some (.done (.shutDown ret)) ∧ ret ≠ -1)
    (hissued : DumpsDisconnected g') : HostInv g' where
  proc := hproc ▸ h.proc
  window := by
    intro hg
    unfold Window
    rw [hproc, hthread, hrel]
    exact h.window (hin hg)
  awake := by
    unfold Host.discThread at haw ⊢
    rw [hproc, hthread]
    exact haw
  issued := hissued

/-- The script takes a step. -/
theorem HostInv.guardStep {g g' : Host} (h : HostInv g) {ok : Bool} (hok : InTime g (.guard ok))
    (hs : g.guardStep ok = some g') : HostInv g' := by
  unfold InTime at hok
  unfold Host.guardStep at hs
  cases hg : g.guard with
  | idle =>
      rw [hg] at hs
      cases hs
      refine h.moveGuard rfl rfl rfl (fun hin => ?_) (fun haw => ?_) h.issued
      · cases ok <;> cases hin
      · cases ok <;> cases haw
  | send =>
      rw [hg] at hs hok
      obtain ⟨hdeliver, halive, horderly⟩ := hok
      simp only [hdeliver, halive, and_self, if_true] at hs
      cases hs
      exact
        { proc := h.proc.disconnect horderly
          window := by
            intro _
            refine ⟨g.proc.threads, .test, rfl, rfl, ?_, ?_⟩
            · intro ret hpc
              cases hpc
            · intro ret hpc
              cases hpc
          awake := fun haw => by cases haw
          issued := h.issued }
  | sleep =>
      rw [hg] at hs hok
      cases hs
      refine h.moveGuard rfl rfl rfl (fun _ => by rw [hg]; rfl) (fun _ => ?_) h.issued
      simp only at hok
      split at hok
      case h_1 ret hd => exact ⟨ret, hd, hok⟩
      case h_2 => exact hok.elim
  | resetPid | fdIndex | pack =>
      rw [hg] at hs
      cases hs
      exact h.moveGuard rfl rfl rfl (fun _ => by rw [hg]; rfl)
        (fun _ => h.awake (by rw [hg]; rfl)) h.issued
  | dump | kill | restore =>
      -- each of these is issued inside the window
      rw [hg] at hs
      cases hs
      exact h.moveGuard rfl rfl rfl (fun _ => by rw [hg]; rfl)
        (fun _ => h.awake (by rw [hg]; rfl)) (h.issue (by rw [hg]; rfl) (by rw [hg]; rfl))
  | reconnect =>
      rw [hg] at hs
      obtain ⟨hpark, -, hdone⟩ := h.parked (by rw [hg]; rfl) (by rw [hg]; rfl)
      simp only at hs
      split at hs
      · cases hs
        exact
          { proc := h.proc.reconnect hpark.1 hdone hpark.2.1 hpark.2.2
            window := fun hin => by cases hin
            awake := fun haw => by cases haw
            issued := h.issued }
      · cases hs
        exact h.moveGuard rfl rfl rfl (fun hin => by cases hin) (fun haw => by cases haw) h.issued

/-- **The step lemma.** -/
theorem HostInv.preserved {g g' : Host} {a : HostAction} (h : HostInv g) (hok : InTime g a)
    (hs : g.step a = some g') : HostInv g' := by
  cases a with
  | proc a =>
      simp only [Host.step] at hs
      split at hs
      · obtain ⟨p, hp, rfl⟩ := Option.map_eq_some_iff.1 hs
        exact h.procStep hok hp
      · cases hs
  | guard ok => exact h.guardStep hok hs

/-! ## §4. The script. -/

/-- **If its disconnect has been carried out when the script's sleep ends, and
nobody else sends commands meanwhile, the process is dumped, killed and restored
only while it is disconnected.** -/
theorem dumpsDisconnected_of_inTime {k : Nat} {g : Host}
    (h : Reaches Host.step InTime (Host.start k) g) : DumpsDisconnected g :=
  (h.invariant (HostInv.start k) fun _ _ _ hI hok hs => hI.preserved hok hs).issued

/-- A checkpoint from beginning to end. -/
def checkpoint : List HostAction :=
  [.guard true, .guard true, .proc (.thread 0 0), .proc (.thread 0 0), .proc .replica, .proc .replica,
    .proc .replica, .proc (.thread 0 0), .proc (.thread 0 0), .proc (.thread 0 0), .proc (.thread 0 0),
    .proc (.thread 0 0), .guard true, .guard true, .guard true, .guard true, .guard true, .guard true,
    .guard true, .guard true, .proc (.arrive 0), .proc .replica, .proc .replica, .proc .replica]

/-- A whole checkpoint: dump, kill and restore. -/
theorem dumpsDisconnected_checkpoint :
    ∃ g, g.issued.length = 3 ∧ g.guard = .idle ∧ g.proc.replica = .loop ∧ DumpsDisconnected g := by
  obtain ⟨g, hg, hv⟩ := exists_reaches_of_execOk Host.step InTime (Host.start 0) checkpoint
    (fun g => (g.issued.length, g.guard, g.proc.replica)) (v := (3, .idle, .loop)) (by decide)
  simp only [Prod.mk.injEq] at hv
  exact ⟨g, hv.1, hv.2.1, hv.2.2, dumpsDisconnected_of_inTime hg⟩

/-- One connection is open: the replica thread refuses, the script dumps. -/
def refused : List HostAction :=
  [.guard true, .guard true, .proc (.thread 0 0), .proc (.thread 0 0), .proc .replica, .proc .replica,
    .proc .replica, .proc (.thread 0 0), .proc (.thread 0 0), .proc (.thread 0 0),
    .guard true, .guard true, .guard true, .guard true]

/-- Without the condition on time, a dump may find the process connected. -/
theorem dumpsDisconnected_fails :
    ¬ ∀ k g, Reaches Host.step (fun _ _ => True) (Host.start k) g → DumpsDisconnected g := by
  intro hall
  obtain ⟨g, hg, hv⟩ := exists_reaches_of_execOk Host.step (fun _ _ => True) (Host.start 1) refused
    Host.issued (v := [⟨some (.done .rejected), false⟩]) (by decide)
  obtain ⟨⟨ret, hret, -⟩, -⟩ :=
    hall 1 g hg ⟨some (.done .rejected), false⟩ (by rw [hv]; exact List.mem_cons_self)
  cases hret

end RdmaPaxos.Checkpoint
