/-
  RdmaPaxos.SharedMemory.Mutex
  ────────────────────────────
  **WHO HOLDS THE MUTEX OF `rsm_op`.**

  In every run, whoever is in the critical section, or has left it by the error exit,
  holds the mutex (`Held`).  The error exit leads past the unlock, so a failed call
  keeps it: after it returns, and for good (`mutex_of_failed`).
-/
import RdmaPaxos.Lib.Ticket
import RdmaPaxos.SharedMemory.RsmOp

namespace RdmaPaxos.SharedMemory

open RdmaPaxos.Run RdmaPaxos.Ticket

/-! ## Calls and the mutex. -/

/-- The call is between the lock and the unlock, or has jumped over the unlock. -/
def Call.holds (c : Call) : Prop := c.pc = .store ∨ c.failed = true

/-- A call inside the critical section has the lock. -/
def Held (s : State) : Prop := ∀ id c, s.calls[id]? = some c → c.holds → s.mutex = some id

/-- A call with an entry has stored its record. -/
theorem Call.not_failed {c : Call} {off : Nat} (hoff : c.newEntry = some off) :
    ¬ c.failed = true := by
  rw [Call.failed, hoff]
  simp

/-- A call past its store has left the critical section. -/
theorem Call.not_holds {c : Call} {off : Nat} (hoff : c.newEntry = some off)
    (hpc : c.pc ≠ .store) : ¬ c.holds := by
  rintro (hstore | hfailed)
  · exact hpc hstore
  · exact Call.not_failed hoff hfailed

/-- What a step of call `id` does to it and to the mutex. -/
structure Moves (s : State) (id : Nat) (c : Call) (s' : State) (c' : Call) : Prop where
  calls : s'.calls = s.calls.set id c'
  /-- the mutex is taken, it is released, or it stays as it is -/
  mutex : (s.mutex = none ∧ s'.mutex = some id) ∨ (c.holds ∧ ¬ c'.holds)
    ∨ (s'.mutex = s.mutex ∧ (c'.holds → c.holds))
  failed : c.failed = true → c'.failed = true
  unreturned : ∀ ret, c.pc ≠ .returned ret

/-- A call with an entry has nothing to do with the mutex. -/
theorem Moves.entry {s s' : State} {id off : Nat} {c c' : Call}
    (hcalls : s'.calls = s.calls.set id c') (hmutex : s'.mutex = s.mutex)
    (hoff : c.newEntry = some off) (hunret : ∀ ret, c.pc ≠ .returned ret)
    (hoff' : c'.newEntry = some off) (hpc' : c'.pc ≠ .store) : Moves s id c s' c' where
  calls := hcalls
  mutex := .inr (.inr ⟨hmutex, fun hholds => absurd hholds (Call.not_holds hoff' hpc')⟩)
  failed hfailed := absurd hfailed (Call.not_failed hoff)
  unreturned := hunret

/-- At the exit nothing changes for the mutex. -/
theorem Moves.exit {s s' : State} {id : Nat} {c : Call} {pc : RsmPc} {writes : List Shared}
    (hexit : c.pc.atExit = true) (hunret : ∀ ret, c.pc ≠ .returned ret) (hexit' : pc.atExit = true)
    (hcalls : s'.calls = s.calls.set id { c with writes := writes, pc := pc })
    (hmutex : s'.mutex = s.mutex) : Moves s id c s' { c with writes := writes, pc := pc } := by
  have hfailed : Call.failed { c with writes := writes, pc := pc } = c.failed := by
    rw [Call.failed, Call.failed, hexit, hexit']
  refine ⟨hcalls, .inr (.inr ⟨hmutex, fun hholds => .inr ?_⟩), fun h => hfailed.trans h, hunret⟩
  rcases hholds with hstore | h
  · cases hstore
    cases hexit'
  · exact hfailed.symm.trans h

/-- The loops change the call, its entry and the copies. -/
theorem Replicates.moves {s s' : State} {id off : Nat} {c : Call} {stored : Bool}
    (hoff : c.newEntry = some off) (h : Replicates s id c off stored s') :
    ∃ c', Moves s id c s' c' := by
  cases h with
  | fill hpc hnext =>
      refine ⟨_, .entry rfl rfl hoff (fun _ hr => ?_) hoff ?_⟩
      · cases hpc.symm.trans hr
      · rcases hnext with ⟨-, rfl⟩ | ⟨-, rfl⟩ <;> exact RsmPc.noConfusion
  | ackId hpc =>
      have hunret : ∀ ret, c.pc ≠ .returned ret := fun _ hr => by cases hpc.symm.trans hr
      cases stored with
      | false => exact ⟨_, .entry rfl rfl hoff hunret hoff RsmPc.noConfusion⟩
      | true => exact ⟨_, .entry rfl rfl hoff hunret hoff RsmPc.noConfusion⟩
  | _ hpc =>
      refine ⟨_, .entry rfl rfl hoff (fun _ hr => ?_) hoff RsmPc.noConfusion⟩
      cases hpc.symm.trans hr

/-- A step of a call changes that call. -/
theorem RunStep.moves {s s' : State} {id : Nat} {c : Call} {stored : Bool} {wild : UInt32}
    (hc : s.calls[id]? = some c) (h : RunStep s id c stored wild s') :
    ∃ c', Moves s id c s' c' := by
  have hearly : c.pc.atExit = false → ∀ {P : Prop}, c.failed = true → P := fun hexit P hf => by
    rw [Call.failed, hexit] at hf
    cases hf
  have hunret : ∀ {pc : RsmPc}, c.pc = pc → (∀ ret, pc ≠ .returned ret) →
      ∀ ret, c.pc ≠ .returned ret := fun hpc hne ret hr => hne ret (hpc.symm.trans hr)
  cases h with
  | lock hpc hfree =>
      exact ⟨_, rfl, .inl ⟨hfree, rfl⟩, hearly (by rw [hpc]; rfl),
        hunret hpc fun _ => RsmPc.noConfusion⟩
  | place hpc hfit =>
      refine ⟨_, rfl, .inr (.inl ⟨.inl hpc, ?_⟩), hearly (by rw [hpc]; rfl),
        hunret hpc fun _ => RsmPc.noConfusion⟩
      exact Call.not_holds rfl RsmPc.noConfusion
  | fail hpc =>
      exact ⟨_, rfl, .inr (.inr ⟨rfl, fun _ => .inl hpc⟩), hearly (by rw [hpc]; rfl),
        hunret hpc fun _ => RsmPc.noConfusion⟩
  | replicate hoff hrep => exact hrep.moves hoff
  | spin hpc =>
      refine ⟨c, ?_, .inr (.inr ⟨rfl, fun h => h⟩), fun h => h,
        hunret hpc fun _ => RsmPc.noConfusion⟩
      obtain ⟨hlt, rfl⟩ := List.getElem?_eq_some_iff.mp hc
      rw [List.set_getElem_self]
  | leaveSpin hpc _ =>
      exact ⟨_, .exit (by rw [hpc]; rfl) (hunret hpc fun _ => RsmPc.noConfusion) rfl rfl rfl⟩
  | incRead hpc =>
      exact ⟨_, .exit (by rw [hpc]; rfl) (hunret hpc fun _ => RsmPc.noConfusion) rfl rfl rfl⟩
  | incWrite hpc =>
      exact ⟨_, .exit (by rw [hpc]; rfl) (hunret hpc fun _ => RsmPc.noConfusion) rfl rfl rfl⟩

/-- **The step lemma.** -/
theorem Held.preserved {s s' : State} {a : Action} (h : Held s) (hstep : Step s a s') :
    Held s' := by
  cases hstep with
  | call data =>
      intro id c hc hholds
      rcases get_concat hc with ⟨-, hold⟩ | ⟨-, rfl⟩
      · exact h id c hold hholds
      · rcases hholds with hpc | hfailed
        · cases hpc
        · cases hfailed
  | @run i _ _ _ _ hi hrun =>
      obtain ⟨c', hcalls, hmutex, -, -⟩ := hrun.moves hi
      intro id c hc hholds
      rw [hcalls] at hc
      -- taken: it was free, so nobody else holds it; released: its only holder has left
      rcases hmutex with ⟨hfree, htaken⟩ | ⟨hi', hreleased⟩ | ⟨hsame, hback⟩
      · rcases get_set hc with ⟨rfl, -⟩ | ⟨-, hold⟩
        · exact htaken
        · cases hfree.symm.trans (h id c hold hholds)
      · rcases get_set hc with ⟨-, rfl⟩ | ⟨hne, hold⟩
        · exact absurd hholds hreleased
        · cases (h id c hold hholds).symm.trans (h i _ hi hi')
          exact absurd rfl hne
      · rw [hsame]
        rcases get_set hc with ⟨rfl, rfl⟩ | ⟨-, hold⟩
        · exact h id _ hi (hback hholds)
        · exact h id c hold hholds
  | ackStamp _ => exact h
  | ackNode _ => exact h

/-- Nothing called. -/
theorem held_initial (n l : Nat) : Held (.initial n l) := by
  intro id c hc
  cases hc

/-! ## Failed calls. -/

/-- Call `id` came to the exit from a `store_record` that failed. -/
def State.Failed (s : State) (id : Nat) : Prop := ∃ c, s.calls[id]? = some c ∧ c.failed = true

/-- … and has returned. -/
def State.FailedReturned (s : State) (id : Nat) : Prop :=
  ∃ c ret, s.calls[id]? = some c ∧ c.failed = true ∧ c.pc = .returned ret

/-- What a step keeps of call `id`. -/
theorem Step.call_kept {s s' : State} {a : Action} {id : Nat} {c : Call}
    (hc : s.calls[id]? = some c) (hstep : Step s a s') :
    ∃ c', s'.calls[id]? = some c' ∧ (c.failed = true → c'.failed = true)
      ∧ ∀ ret, c.pc = .returned ret → c'.pc = .returned ret := by
  obtain ⟨hlt, -⟩ := List.getElem?_eq_some_iff.mp hc
  cases hstep with
  | call data =>
      refine ⟨c, ?_, fun h => h, fun _ h => h⟩
      exact (List.getElem?_append_left hlt).trans hc
  | @run i _ _ _ _ hi hrun =>
      obtain ⟨c', hcalls, -, hfailed, hunret⟩ := hrun.moves hi
      rw [hcalls]
      by_cases heq : i = id
      · subst heq
        cases hi.symm.trans hc
        exact ⟨c', List.getElem?_set_self hlt, hfailed, fun ret hr => absurd hr (hunret ret)⟩
      · exact ⟨c, (List.getElem?_set_ne heq).trans hc, fun h => h, fun _ h => h⟩
  | ackStamp _ => exact ⟨c, hc, fun h => h, fun _ h => h⟩
  | ackNode _ => exact ⟨c, hc, fun h => h, fun _ h => h⟩

/-- A call that failed stays so. -/
theorem State.Failed.kept {s s' : State} {a : Action} {id : Nat} (h : s.Failed id)
    (hstep : Step s a s') : s'.Failed id := by
  obtain ⟨c, hc, hfailed⟩ := h
  obtain ⟨c', hc', hkept, -⟩ := hstep.call_kept hc
  exact ⟨c', hc', hkept hfailed⟩

/-- And so does its return. -/
theorem State.FailedReturned.kept {s s' : State} {a : Action} {id : Nat} (h : s.FailedReturned id)
    (hstep : Step s a s') : s'.FailedReturned id := by
  obtain ⟨c, ret, hc, hfailed, hret⟩ := h
  obtain ⟨c', hc', hkept, hret'⟩ := hstep.call_kept hc
  exact ⟨c', ret, hc', hkept hfailed, hret' ret hret⟩

/-- **A failed call never gives the mutex back.** -/
theorem mutex_of_failed {s s' : State} {ok : State → Action → Prop} {id : Nat} (hheld : Held s)
    (h : s.Failed id) (hs : Reaches State.step ok s s') : s'.mutex = some id := by
  have hinv : Held s' ∧ s'.Failed id :=
    hs.invariant (I := fun s => Held s ∧ s.Failed id) ⟨hheld, h⟩ fun _ _ _ hI _ hstep =>
      ⟨hI.1.preserved (step_cases hstep), hI.2.kept (step_cases hstep)⟩
  obtain ⟨hheld', c, hc, hfailed⟩ := hinv
  exact hheld' id c hc (.inr hfailed)

end RdmaPaxos.SharedMemory
