/-
  RdmaPaxos.Lib.Ticket
  ────────────────────
  **A COUNTER ADVANCED IN TICKET ORDER, WITHOUT A LOCK.**

  Threads 0, 1, 2, … hold consecutive tickets.  Each of them waits until the
  shared counter has reached its ticket, then reads the counter and writes the
  value read plus one, in two separate steps.  `Ordered` is the invariant that
  makes the unprotected read-modify-write safe:

    • a thread is finished exactly when its ticket is below the counter,
    • whoever is between the wait and the write holds the counter's ticket, and
      the value it has read is still the counter's.

  Hence no two threads are ever inside (`Ordered.exclusive`) and no increment is
  lost (`Ordered.count_finished`).
-/
import Mathlib.Tactic.Common

namespace RdmaPaxos.Ticket

/-- Where a thread is. -/
inductive Phase where
  | waiting
  /-- past the wait, before the read -/
  | entered
  /-- has read `v`, before the write -/
  | holding (v : Nat)
  | finished
  deriving DecidableEq

/-- Past the wait and before the end of the increment. -/
def Phase.inside : Phase → Bool
  | .entered => true
  | .holding _ => true
  | _ => false

section Lists
variable {α : Type*} {xs : List α} {x y : α} {id j : Nat}

/-- The elements of a list after one of them changed. -/
theorem get_set (h : (xs.set id x)[j]? = some y) :
    (j = id ∧ y = x) ∨ (j ≠ id ∧ xs[j]? = some y) := by
  rw [List.getElem?_set] at h
  split at h
  next heq =>
    subst heq
    split at h
    · cases h
      exact .inl ⟨rfl, rfl⟩
    · cases h
  next hne => exact .inr ⟨fun heq => hne heq.symm, h⟩

/-- The elements of a list after one was added. -/
theorem get_concat (h : (xs ++ [x])[j]? = some y) :
    (j < xs.length ∧ xs[j]? = some y) ∨ (j = xs.length ∧ y = x) := by
  rw [List.getElem?_append] at h
  split at h
  next hlt => exact .inl ⟨hlt, h⟩
  next hge =>
    rw [List.getElem?_singleton] at h
    split at h
    · cases h
      exact .inr ⟨by omega, rfl⟩
    · cases h

/-- Changing another element does not lower a count. -/
theorem count_le_count_set [DecidableEq α] (h : xs[id]? = some x) (hne : x ≠ y) (z : α) :
    xs.count y ≤ (xs.set id z).count y := by
  induction xs generalizing id with
  | nil => cases h
  | cons a xs ih =>
      cases id with
      | zero =>
          cases h
          rw [List.set_cons_zero, List.count_cons_of_ne hne]
          exact List.count_le_count_cons
      | succ id =>
          rw [List.set_cons_succ, List.count_cons, List.count_cons]
          exact Nat.add_le_add_right (ih h) _

/-- A function along a list without repetitions, after one of its values changed. -/
theorem map_set_of_nodup {β : Type*} {f g : α → β} {t : Nat} (hnodup : xs.Nodup)
    (ht : xs[t]? = some x) (hother : ∀ y, y ≠ x → g y = f y) :
    xs.map g = (xs.map f).set t (g x) := by
  induction xs generalizing t with
  | nil => cases ht
  | cons a xs ih =>
      obtain ⟨hnot, hrest⟩ := List.nodup_cons.mp hnodup
      cases t with
      | zero =>
          cases ht
          have htail : xs.map g = xs.map f :=
            List.map_congr_left fun y hy => hother y fun heq => hnot (heq ▸ hy)
          rw [List.map_cons, List.map_cons, List.set_cons_zero, htail]
      | succ t =>
          have hne : a ≠ x := fun heq => hnot (heq ▸ List.mem_of_getElem? ht)
          rw [List.map_cons, List.map_cons, List.set_cons_succ, ih hrest ht, hother a hne]

end Lists

/-- Thread `id` has phase `ps[id]`, and the shared counter is `counter`. -/
structure Ordered (ps : List Phase) (counter : Nat) : Prop where
  le : counter ≤ ps.length
  finished : ∀ id p, ps[id]? = some p → (p = .finished ↔ id < counter)
  entered : ∀ id, ps[id]? = some .entered → id = counter
  holding : ∀ id v, ps[id]? = some (.holding v) → id = counter ∧ v = counter

namespace Ordered

variable {ps : List Phase} {counter id : Nat}

theorem nil : Ordered [] 0 := by
  refine ⟨Nat.le_refl 0, ?_, ?_, ?_⟩ <;> simp

/-- A step of a thread that is none of the three below. -/
theorem stay (h : Ordered ps counter) {p : Phase} (hid : ps[id]? = some p) :
    Ordered (ps.set id p) counter := by
  obtain ⟨hlt, rfl⟩ := List.getElem?_eq_some_iff.mp hid
  rw [List.set_getElem_self]
  exact h

/-- A thread takes the next ticket. -/
theorem append (h : Ordered ps counter) : Ordered (ps ++ [.waiting]) counter := by
  have hle := h.le
  refine ⟨?_, fun j p hj => ?_, fun j hj => ?_, fun j v hj => ?_⟩
  · rw [List.length_append]
    omega
  · rcases get_concat hj with ⟨-, hold⟩ | ⟨rfl, rfl⟩
    · exact h.finished j p hold
    · exact ⟨nofun, fun hlt => by omega⟩
  · rcases get_concat hj with ⟨-, hold⟩ | ⟨-, hp⟩
    · exact h.entered j hold
    · cases hp
  · rcases get_concat hj with ⟨-, hold⟩ | ⟨-, hp⟩
    · exact h.holding j v hold
    · cases hp

/-- A waiting thread finds the counter at its ticket or past it. -/
theorem enter (h : Ordered ps counter) (hid : ps[id]? = some .waiting) (hle : id ≤ counter) :
    Ordered (ps.set id .entered) counter := by
  have hge : ¬ id < counter := fun hlt => by
    cases (h.finished id _ hid).mpr hlt
  refine ⟨by rw [List.length_set]; exact h.le, fun j p hj => ?_, fun j hj => ?_, fun j v hj => ?_⟩
  · rcases get_set hj with ⟨rfl, rfl⟩ | ⟨-, hold⟩
    · exact ⟨nofun, fun hlt => absurd hlt hge⟩
    · exact h.finished j p hold
  · rcases get_set hj with ⟨rfl, -⟩ | ⟨-, hold⟩
    · omega
    · exact h.entered j hold
  · rcases get_set hj with ⟨-, hp⟩ | ⟨-, hold⟩
    · cases hp
    · exact h.holding j v hold

/-- A thread inside reads the counter. -/
theorem read (h : Ordered ps counter) (hid : ps[id]? = some .entered) :
    Ordered (ps.set id (.holding counter)) counter := by
  have heq := h.entered id hid
  refine ⟨by rw [List.length_set]; exact h.le, fun j p hj => ?_, fun j hj => ?_, fun j v hj => ?_⟩
  · rcases get_set hj with ⟨rfl, rfl⟩ | ⟨-, hold⟩
    · exact ⟨nofun, fun hlt => by omega⟩
    · exact h.finished j p hold
  · rcases get_set hj with ⟨-, hp⟩ | ⟨-, hold⟩
    · cases hp
    · exact h.entered j hold
  · rcases get_set hj with ⟨rfl, hp⟩ | ⟨-, hold⟩
    · cases hp
      exact ⟨heq, rfl⟩
    · exact h.holding j v hold

/-- A thread inside writes the value it has read, plus one. -/
theorem write (h : Ordered ps counter) {v : Nat} (hid : ps[id]? = some (.holding v)) :
    Ordered (ps.set id .finished) (v + 1) := by
  obtain ⟨heq, rfl⟩ := h.holding id v hid
  have hlt : id < ps.length := (List.getElem?_eq_some_iff.mp hid).1
  refine ⟨by rw [List.length_set]; omega, fun j p hj => ?_, fun j hj => ?_, fun j u hj => ?_⟩
  · rcases get_set hj with ⟨rfl, rfl⟩ | ⟨hne, hold⟩
    · exact ⟨fun _ => by omega, fun _ => rfl⟩
    · rw [h.finished j p hold]
      omega
  · rcases get_set hj with ⟨-, hp⟩ | ⟨hne, hold⟩
    · cases hp
    · exact absurd ((h.entered j hold).trans heq.symm) hne
  · rcases get_set hj with ⟨-, hp⟩ | ⟨hne, hold⟩
    · cases hp
    · exact absurd ((h.holding j u hold).1.trans heq.symm) hne

/-- **Mutual exclusion.** -/
theorem exclusive (h : Ordered ps counter) {i j : Nat} {p q : Phase}
    (hi : ps[i]? = some p) (hj : ps[j]? = some q)
    (hp : p.inside = true) (hq : q.inside = true) : i = j := by
  have at_counter : ∀ {k : Nat} {r : Phase}, ps[k]? = some r → r.inside = true → k = counter := by
    intro k r hk hr
    cases r with
    | waiting => cases hr
    | entered => exact h.entered k hk
    | holding v => exact (h.holding k v hk).1
    | finished => cases hr
  rw [at_counter hi hp, at_counter hj hq]

/-- **No increment is lost.** -/
theorem count_finished (h : Ordered ps counter) : ps.count .finished = counter := by
  have htake : ∀ n, n ≤ ps.length → (ps.take n).count .finished = min n counter := by
    intro n
    induction n with
    | zero => simp
    | succ n ih =>
        intro hn
        have hget : ps[n]? = some ps[n] := List.getElem?_eq_getElem (by omega)
        have hfin := h.finished n _ hget
        rw [List.take_add_one, hget, List.count_append, ih (by omega)]
        by_cases hlt : n < counter
        · rw [hfin.mpr hlt]
          simp
          omega
        · have hne : ps[n] ≠ .finished := fun heq => hlt (hfin.mp heq)
          simp [hne]
          omega
  have hle := h.le
  have hall := htake ps.length (Nat.le_refl _)
  rw [List.take_length] at hall
  omega

end Ordered

end RdmaPaxos.Ticket
