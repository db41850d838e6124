/-
  RdmaPaxos.Lib.Progress
  ──────────────────────
  **BUILDING RUNS: WHAT CAN STILL BE REACHED.**

  An invariant says what no run does; the rules here show that from every state of a
  kind some run leads to a goal.

    • `exists_reaches_of_decreasing` — as long as the goal is not reached, some step
      keeps the invariant and makes a measure smaller,
    • `exists_reaches_of_parts` — the same for a system of parts, each with a measure of
      its own: some part can move towards its goal without setting another one back.
-/
import RdmaPaxos.Lib.Run
import Mathlib.Algebra.Order.BigOperators.Group.List
import Mathlib.Algebra.Order.Group.Nat

namespace RdmaPaxos.Run

variable {σ α ι : Type*} {step : σ → α → Option σ} {ok : σ → α → Prop} {I G : σ → Prop}

/-- **A measure that can be made smaller until the goal is reached.** -/
theorem exists_reaches_of_decreasing (μ : σ → Nat)
    (hstep : ∀ s, I s → ¬ G s → ∃ a s', ok s a ∧ step s a = some s' ∧ I s' ∧ μ s' < μ s) {s : σ}
    (hI : I s) : ∃ s', Reaches step ok s s' ∧ I s' ∧ G s' := by
  -- induction on a bound of the measure
  have hbound : ∀ k s, μ s < k → I s → ∃ s', Reaches step ok s s' ∧ I s' ∧ G s' := by
    intro k
    induction k with
    | zero => exact fun s hlt => absurd hlt (Nat.not_lt_zero _)
    | succ k ih =>
        intro s hlt hI
        by_cases hG : G s
        · exact ⟨s, .refl, hI, hG⟩
        · obtain ⟨a, s₁, hok, hs, hI₁, hless⟩ := hstep s hI hG
          obtain ⟨s₂, hrun, hI₂, hG₂⟩ := ih s₁ (by omega) hI₁
          exact ⟨s₂, (Reaches.single hok hs).trans hrun, hI₂, hG₂⟩
  exact hbound (μ s + 1) s (Nat.lt_succ_self _) hI

/-- The measure of part `z` gets smaller, and no other one larger. -/
def Advances (xs : List ι) (μ : ι → σ → Nat) (z : ι) (s s' : σ) : Prop :=
  μ z s' < μ z s ∧ ∀ y ∈ xs, y ≠ z → μ y s' ≤ μ y s

/-- **Parts that can be moved one at a time until all are at their goals.** -/
theorem exists_reaches_of_parts (step : σ → α → Option σ) (ok : σ → α → Prop)
    {P : ι → σ → Prop} (xs : List ι) (μ : ι → σ → Nat)
    (hstep : ∀ s, I s → ∀ x ∈ xs, ¬ P x s →
      ∃ a s', ok s a ∧ step s a = some s' ∧ I s' ∧ ∃ z ∈ xs, Advances xs μ z s s') {s : σ}
    (hI : I s) : ∃ s', Reaches step ok s s' ∧ I s' ∧ ∀ x ∈ xs, P x s' := by
  refine exists_reaches_of_decreasing (fun s => (xs.map fun x => μ x s).sum) (fun s hI hG => ?_) hI
  push Not at hG
  obtain ⟨x, hx, hP⟩ := hG
  obtain ⟨a, s', hok, hs, hI', z, hz, hless, hrest⟩ := hstep s hI x hx hP
  refine ⟨a, s', hok, hs, hI', List.sum_lt_sum _ _ (fun y hy => ?_) ⟨z, hz, hless⟩⟩
  rcases eq_or_ne y z with rfl | hne
  · exact hless.le
  · exact hrest y hy hne

end RdmaPaxos.Run
