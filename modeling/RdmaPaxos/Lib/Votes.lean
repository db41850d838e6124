/-
  RdmaPaxos.Lib.Votes
  ───────────────────
  **VOTES, TERMS, MAJORITIES.**

  A history of votes is a list of triples (voter, term, candidate); the voters are
  the numbers below `n`.  Whatever the protocol, one argument decides whether a
  term can have two winners: two majorities share a voter, and a voter that votes
  once per term cannot have voted for both.
-/
import Mathlib.Data.Finset.Card
import Mathlib.Data.Finset.Range

namespace RdmaPaxos.Votes

variable {T C : Type*} {n : Nat} {vs vs' : List (Nat × T × C)} {t : T} {c d : C}

/-- Nobody votes for two candidates in one term. -/
def OncePerTerm (vs : List (Nat × T × C)) : Prop :=
  ∀ v t c d, (v, t, c) ∈ vs → (v, t, d) ∈ vs → c = d

/-- A majority of the `n` voters has voted for `c` in term `t`. -/
def Won (n : Nat) (vs : List (Nat × T × C)) (t : T) (c : C) : Prop :=
  ∃ s : Finset Nat, s ⊆ Finset.range n ∧ n / 2 + 1 ≤ s.card ∧ ∀ v ∈ s, (v, t, c) ∈ vs

/-- **Two majorities meet.** -/
theorem majorities_meet {s s' : Finset Nat} (hs : s ⊆ Finset.range n) (hs' : s' ⊆ Finset.range n)
    (hcard : n / 2 + 1 ≤ s.card) (hcard' : n / 2 + 1 ≤ s'.card) : ∃ v, v ∈ s ∧ v ∈ s' := by
  have hlt : (Finset.range n).card < s.card + s'.card := by
    rw [Finset.card_range]
    omega
  obtain ⟨v, hv⟩ := Finset.inter_nonempty_of_card_lt_card_add_card hs hs' hlt
  exact ⟨v, (Finset.mem_inter.mp hv).1, (Finset.mem_inter.mp hv).2⟩

/-- **A term has one winner.** -/
theorem won_unique (honce : OncePerTerm vs) (hc : Won n vs t c) (hd : Won n vs t d) : c = d := by
  obtain ⟨s, hs, hcard, hvote⟩ := hc
  obtain ⟨s', hs', hcard', hvote'⟩ := hd
  obtain ⟨v, hv, hv'⟩ := majorities_meet hs hs' hcard hcard'
  exact honce v t c d (hvote v hv) (hvote' v hv')

/-- Winning is permanent. -/
theorem Won.mono (h : Won n vs t c) (hsub : ∀ v ∈ vs, v ∈ vs') : Won n vs' t c := by
  obtain ⟨s, hs, hcard, hvote⟩ := h
  exact ⟨s, hs, hcard, fun v hv => hsub _ (hvote v hv)⟩

/-- A vote in a term the voter has not voted in. -/
theorem OncePerTerm.cast (h : OncePerTerm vs) {v : Nat} (hnew : ∀ d, (v, t, d) ∉ vs) :
    OncePerTerm (vs ++ [(v, t, c)]) := by
  intro u r a b ha hb
  -- `a` or `b` may be the new vote
  rcases List.mem_append.mp ha with hold | hlast
  · rcases List.mem_append.mp hb with hold' | hlast'
    · exact h u r a b hold hold'
    · obtain ⟨rfl, rfl, rfl⟩ := by simpa using hlast'
      exact absurd hold (hnew a)
  · obtain ⟨rfl, rfl, rfl⟩ := by simpa using hlast
    rcases List.mem_append.mp hb with hold' | hlast'
    · exact absurd hold' (hnew b)
    · obtain ⟨-, -, rfl⟩ := by simpa using hlast'
      rfl

end RdmaPaxos.Votes
