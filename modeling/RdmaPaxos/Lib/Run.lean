/-
  RdmaPaxos.Lib.Run
  ─────────────────
  **GUARDED RUNS OF A PARTIAL STEP FUNCTION.**

  A system is a partial step function `step : σ → α → Option σ`: `none` means
  the action is not enabled.  `Reaches step ok s₀ s` says that `s` is the end
  of a run from `s₀` all of whose actions satisfy `ok` in the state they are
  taken in, so one model serves many results: each names the runs it is about by
  its own `ok`.  The rules:

    • `Reaches.invariant` — holds initially, kept by every admitted step,
      hence holds in every state reached,
    • `Reaches.mono`, `Reaches.trans` — weaker guards, concatenated runs,
    • `Reaches.project` — a map that sends every step to a step or to nothing
      sends runs to runs; `Reaches.simulate` — only the steps of states that can be
      reached need to be looked at,
    • `reaches_of_execOk`, `exists_reaches_of_execOk` — a concrete list of actions
      is a run,
    • `visits_forall_iff` — for a total step function: an exact condition for
      one step is an exact condition for whole runs.
-/
import Mathlib.Tactic.Basic

namespace RdmaPaxos.Run

variable {σ τ α β : Type*}

/-! ## Guarded runs. -/

/-- `s` is the end of a run from `s₀` whose every action is admitted by `ok`. -/
inductive Reaches (step : σ → α → Option σ) (ok : σ → α → Prop) (s₀ : σ) : σ → Prop where
  | refl : Reaches step ok s₀ s₀
  | tail {s s' : σ} {a : α} :
      Reaches step ok s₀ s → ok s a → step s a = some s' → Reaches step ok s₀ s'

variable {step : σ → α → Option σ} {ok ok' : σ → α → Prop} {s₀ s s' : σ}

/-- **The invariant rule.** -/
theorem Reaches.invariant {I : σ → Prop} (h₀ : I s₀)
    (hstep : ∀ s a s', I s → ok s a → step s a = some s' → I s')
    (h : Reaches step ok s₀ s) : I s := by
  induction h with
  | refl => exact h₀
  | tail _ hok hs ih => exact hstep _ _ _ ih hok hs

/-- A run admitted by `ok` is admitted by any weaker guard. -/
theorem Reaches.mono (hweak : ∀ s a, ok s a → ok' s a)
    (h : Reaches step ok s₀ s) : Reaches step ok' s₀ s := by
  induction h with
  | refl => exact .refl
  | tail _ hok hs ih => exact ih.tail (hweak _ _ hok) hs

/-- Runs concatenate. -/
theorem Reaches.trans (h₁ : Reaches step ok s₀ s) (h₂ : Reaches step ok s s') :
    Reaches step ok s₀ s' := by
  induction h₂ with
  | refl => exact h₁
  | tail _ hok hs ih => exact ih.tail hok hs

/-- One admitted step is a run. -/
theorem Reaches.single {a : α} (hok : ok s a) (hs : step s a = some s') :
    Reaches step ok s s' := Reaches.refl.tail hok hs

/-- **Projection.**  If `f` maps every admitted step to an admitted step of a
second system or to no step at all, it maps runs to runs. -/
theorem Reaches.project {step' : τ → β → Option τ} {okτ : τ → β → Prop} {f : σ → τ}
    (hsim : ∀ s a s', ok s a → step s a = some s' →
      f s' = f s ∨ ∃ b, okτ (f s) b ∧ step' (f s) b = some (f s'))
    (h : Reaches step ok s₀ s) : Reaches step' okτ (f s₀) (f s) := by
  induction h with
  | refl => exact .refl
  | tail _ hok hs ih =>
      rcases hsim _ _ _ hok hs with heq | ⟨b, hb, hstep⟩
      · rw [heq]; exact ih
      · exact ih.tail hb hstep

/-- Run a list of actions, stopping at the first one that `ok` does not admit. -/
def execOk (step : σ → α → Option σ) (ok : σ → α → Prop) [∀ s a, Decidable (ok s a)] :
    σ → List α → Option σ
  | s, [] => some s
  | s, a :: as => if ok s a then (step s a).bind fun s' => execOk step ok s' as else none

/-- **A concrete list of actions is a run.** -/
theorem reaches_of_execOk [∀ s a, Decidable (ok s a)] {as : List α}
    (h : execOk step ok s₀ as = some s) : Reaches step ok s₀ s := by
  induction as generalizing s₀ with
  | nil =>
      simp only [execOk, Option.some.injEq] at h
      exact h ▸ .refl
  | cons a as ih =>
      simp only [execOk] at h
      split at h
      next hok =>
        obtain ⟨s₁, hs₁, hrest⟩ := Option.bind_eq_some_iff.mp h
        exact (Reaches.single hok hs₁).trans (ih hrest)
      next => exact absurd h (by simp)

/-- A concrete list of actions, and what can be computed of the state it ends in. -/
theorem exists_reaches_of_execOk (step : σ → α → Option σ) (ok : σ → α → Prop)
    [∀ s a, Decidable (ok s a)] (s₀ : σ) (as : List α) {γ : Type*} (f : σ → γ) {v : γ}
    (h : (execOk step ok s₀ as).map f = some v) : ∃ s, Reaches step ok s₀ s ∧ f s = v := by
  obtain ⟨s, hs, hv⟩ := Option.map_eq_some_iff.mp h
  exact ⟨s, reaches_of_execOk hs, hv⟩

/-- Two lists of actions, one after the other. -/
theorem exists_reaches_of_execOk_two (step : σ → α → Option σ) (ok : σ → α → Prop)
    [∀ s a, Decidable (ok s a)] (s₀ : σ) (as bs : List α) {γ : Type*} (f : σ → σ → γ) {v : γ}
    (h : ((execOk step ok s₀ as).bind fun s => (execOk step ok s bs).map (f s)) = some v) :
    ∃ s s', Reaches step ok s₀ s ∧ Reaches step ok s s' ∧ f s s' = v := by
  obtain ⟨s, hs, hrest⟩ := Option.bind_eq_some_iff.mp h
  obtain ⟨s', hs', hv⟩ := Option.map_eq_some_iff.mp hrest
  exact ⟨s, s', reaches_of_execOk hs, reaches_of_execOk hs', hv⟩

/-! ## Total step functions over a list of inputs. -/

/-- The inputs of a run of a total step function, each with the state it meets. -/
def visits (f : σ → α → σ) : σ → List α → List (σ × α)
  | _, [] => []
  | s, a :: as => (s, a) :: visits f (f s a) as

/-- **An exact condition, step by step.**  If under an invariant a step has
property `P` exactly when `Q` holds, and a step with `P` keeps the invariant,
then all steps of a run have `P` exactly when all of them meet `Q`. -/
theorem visits_forall_iff {f : σ → α → σ} {I : σ → Prop} {P Q : σ → α → Prop}
    (hstep : ∀ s a, I s → (P s a ↔ Q s a))
    (hinv : ∀ s a, I s → P s a → I (f s a)) (as : List α) :
    ∀ s, I s → ((∀ v ∈ visits f s as, P v.1 v.2) ↔ ∀ v ∈ visits f s as, Q v.1 v.2) := by
  induction as with
  | nil => intro s _; simp [visits]
  | cons a as ih =>
      intro s hI
      simp only [visits, List.forall_mem_cons, ← hstep s a hI]
      exact and_congr_right fun hP => ih _ (hinv s a hI hP)

end RdmaPaxos.Run
