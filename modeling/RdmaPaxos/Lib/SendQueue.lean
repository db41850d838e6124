/-
  RdmaPaxos.Lib.SendQueue
  ───────────────────────
  **SEND QUEUES WITH SELECTIVE SIGNALLING.**

  Work requests are posted to a queue and complete in the order they were posted.
  Only a signaled request leaves an entry in the completion queue; taking that
  entry tells the sender that the request and all before it are complete.  A poll
  waits until there is an entry.

  A sender that signals the requests 0, P, 2P, … and polls once before each of the
  requests P-1, 2P-1, … keeps `Cadence P`: between two sends

      request        0   1  …  P-2  P-1   P   …  2P-2  2P-1
      signaled       ●                    ●
      poll before                     ○                  ○

  one completion or none is to be taken, none is missing when it polls, and at
  most 2P - 2 requests are not known to be complete.
-/
import Mathlib.Tactic.Common

namespace RdmaPaxos.SendQueue

variable {ρ : Type*}

/-! ## §1. The queue. -/

/-- A send queue with its completion queue; requests are numbered as they are
posted, and carry a tag that says who posted them. -/
structure Queue (ρ : Type*) where
  posted : Nat
  /-- the first `completed` requests are complete -/
  completed : Nat
  /-- the signaled requests whose completion has not been taken, oldest first -/
  pending : List (Nat × ρ)
  /-- the first `known` requests are known to be complete -/
  known : Nat

/-- An empty queue. -/
def Queue.new : Queue ρ := ⟨0, 0, [], 0⟩

/-- A request is posted; only a signaled one will have a completion. -/
def Queue.post (q : Queue ρ) (r : ρ) (signaled : Bool) : Queue ρ :=
  { q with
    posted := q.posted + 1
    pending := if signaled then q.pending ++ [(q.posted, r)] else q.pending }

/-- One more request completes. -/
def Queue.complete (q : Queue ρ) : Option (Queue ρ) :=
  if q.completed < q.posted then some { q with completed := q.completed + 1 } else none

/-- The oldest completion is taken, once it is there. -/
def Queue.poll (q : Queue ρ) : Option (Queue ρ × ρ) :=
  match q.pending with
  | [] => none
  | (i, r) :: rest =>
      if i < q.completed then some ({ q with pending := rest, known := i + 1 }, r) else none

/-- What a completion does. -/
theorem Queue.complete_eq {q q' : Queue ρ} (h : q.complete = some q') :
    q.completed < q.posted ∧ q' = { q with completed := q.completed + 1 } := by
  unfold Queue.complete at h
  split at h
  next hlt => cases h; exact ⟨hlt, rfl⟩
  next => cases h

/-- What a poll does. -/
theorem Queue.poll_eq {q q' : Queue ρ} {r : ρ} (h : q.poll = some (q', r)) :
    ∃ i rest, q.pending = (i, r) :: rest ∧ i < q.completed
      ∧ q' = { q with pending := rest, known := i + 1 } := by
  unfold Queue.poll at h
  split at h
  next => cases h
  next i r' rest hpending =>
    split at h
    next hlt => cases h; exact ⟨i, rest, hpending, hlt, rfl⟩
    next => cases h

/-! ## §2. One signal and one poll every `P` sends. -/

/-- Between two sends. -/
structure Cadence (P : Nat) (q : Queue ρ) : Prop where
  pending : q.pending.map Prod.fst = if q.posted % P = 0 then [] else [P * (q.posted / P)]
  known : q.known = if q.posted / P = 0 then 0 else P * (q.posted / P - 1) + 1

/-- Between the poll before request P-1, 2P-1, … and its post. -/
structure Polled (P : Nat) (q : Queue ρ) : Prop where
  turn : q.posted % P = P - 1
  pending : q.pending = []
  known : q.known = P * (q.posted / P) + 1

section Cadence
variable {P : Nat} {q q' : Queue ρ} {r : ρ}

theorem Cadence.new : Cadence P (Queue.new : Queue ρ) where
  pending := by simp [Queue.new]
  known := by simp [Queue.new]

/-- A completion changes nothing of the order. -/
theorem Cadence.complete (h : Cadence P q) (hq : q.complete = some q') : Cadence P q' := by
  obtain ⟨-, rfl⟩ := Queue.complete_eq hq
  exact ⟨h.pending, h.known⟩

/-- Nor does it after a poll. -/
theorem Polled.complete (h : Polled P q) (hq : q.complete = some q') : Polled P q' := by
  obtain ⟨-, rfl⟩ := Queue.complete_eq hq
  exact ⟨h.turn, h.pending, h.known⟩

/-- The next request, in the same period. -/
theorem succ_div_mod {k : Nat} (h : k % P + 1 < P) :
    (k + 1) / P = k / P ∧ (k + 1) % P = k % P + 1 := by
  have hk := Nat.div_add_mod k P
  exact (Nat.div_mod_unique (by omega)).mpr ⟨by omega, h⟩

/-- The first request of the next period. -/
theorem succ_div_mod_last {k : Nat} (hpos : 0 < P) (h : k % P = P - 1) :
    (k + 1) / P = k / P + 1 ∧ (k + 1) % P = 0 := by
  have hk := Nat.div_add_mod k P
  refine (Nat.div_mod_unique hpos).mpr ⟨?_, hpos⟩
  rw [Nat.mul_add_one]
  omega

/-- Request 0, P, 2P, … is posted signaled. -/
theorem Cadence.post_signaled (h : Cadence P q) (hP : 2 ≤ P) (hturn : q.posted % P = 0) :
    Cadence P (q.post r true) := by
  obtain ⟨hdiv, hmod⟩ := succ_div_mod (k := q.posted) (P := P) (by omega)
  have hk := Nat.div_add_mod q.posted P
  have hpending := h.pending
  rw [if_pos hturn, List.map_eq_nil_iff] at hpending
  constructor
  · show (q.pending ++ [(q.posted, r)]).map Prod.fst = _
    rw [hpending, if_neg (by show ¬ (q.posted + 1) % P = 0; omega)]
    show [q.posted] = [P * ((q.posted + 1) / P)]
    rw [hdiv]
    congr 1
    omega
  · show q.known = if (q.posted + 1) / P = 0 then _ else P * ((q.posted + 1) / P - 1) + 1
    rw [hdiv]
    exact h.known

/-- The others, but the last of a period, are not. -/
theorem Cadence.post_plain (h : Cadence P q) (hturn : q.posted % P ≠ 0) (hlast : q.posted % P + 1 < P) :
    Cadence P (q.post r false) := by
  obtain ⟨hdiv, hmod⟩ := succ_div_mod hlast
  constructor
  · show q.pending.map Prod.fst = if (q.posted + 1) % P = 0 then [] else [P * ((q.posted + 1) / P)]
    rw [hdiv, h.pending, if_neg hturn, if_neg (by omega)]
  · show q.known = if (q.posted + 1) / P = 0 then _ else P * ((q.posted + 1) / P - 1) + 1
    rw [hdiv]
    exact h.known

/-- In the course of a period one completion is to be taken. -/
theorem Cadence.one_pending (h : Cadence P q) (hturn : q.posted % P ≠ 0) :
    ∃ i r, q.pending = [(i, r)] ∧ i < q.posted ∧ i = P * (q.posted / P) := by
  have hpending := h.pending
  have hk := Nat.div_add_mod q.posted P
  rw [if_neg hturn] at hpending
  obtain ⟨⟨i, r⟩, rest, heq, hi, hrest⟩ := List.map_eq_cons_iff.mp hpending
  rw [List.map_eq_nil_iff] at hrest
  exact ⟨i, r, by rw [heq, hrest], by dsimp only at hi; omega, hi⟩

/-- The poll before the last request of a period takes it. -/
theorem Cadence.poll (h : Cadence P q) (hP : 2 ≤ P) (hturn : q.posted % P = P - 1)
    (hq : q.poll = some (q', r)) : Polled P q' := by
  obtain ⟨i, rest, hpending, -, rfl⟩ := Queue.poll_eq hq
  obtain ⟨i', r', hone, -, hi⟩ := h.one_pending (by omega)
  rw [hone] at hpending
  cases hpending
  exact ⟨hturn, rfl, by rw [hi]⟩

/-- The first request after a poll. -/
theorem Polled.post (h : Polled P q) (hP : 2 ≤ P) : Cadence P (q.post r false) := by
  obtain ⟨hdiv, hmod⟩ := succ_div_mod_last (by omega) h.turn
  constructor
  · show q.pending.map Prod.fst = if (q.posted + 1) % P = 0 then [] else _
    rw [if_pos hmod, h.pending]
    rfl
  · show q.known = if (q.posted + 1) / P = 0 then _ else P * ((q.posted + 1) / P - 1) + 1
    rw [hdiv, if_neg (Nat.succ_ne_zero _), Nat.add_sub_cancel]
    exact h.known

/-- **At most 2P - 2 requests are not known to be complete.** -/
theorem Cadence.outstanding (h : Cadence P q) (hP : 2 ≤ P) : q.posted + 2 ≤ q.known + 2 * P := by
  have hk := Nat.div_add_mod q.posted P
  have hlt := Nat.mod_lt q.posted (show 0 < P by omega)
  rw [h.known]
  split
  next hzero =>
    rw [hzero, Nat.mul_zero] at hk
    omega
  next hne =>
    obtain ⟨d, hd⟩ := Nat.exists_eq_succ_of_ne_zero hne
    rw [hd, Nat.mul_succ] at hk
    rw [hd, Nat.succ_sub_one]
    omega

/-- After a poll, fewer than two rounds are not known to be done. -/
theorem Polled.outstanding (h : Polled P q) (hP : 2 ≤ P) : q.posted + 2 ≤ q.known + 2 * P := by
  have hk := Nat.div_add_mod q.posted P
  have hturn := h.turn
  rw [h.known]
  omega

end Cadence

end RdmaPaxos.SendQueue
