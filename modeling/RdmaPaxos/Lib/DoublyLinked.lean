/-
  RdmaPaxos.Lib.DoublyLinked
  ──────────────────────────
  **DOUBLY LINKED LISTS IN A HEAP.**

  A heap is modelled field by field: `Links A` has the two link fields of the cells at
  the addresses `A`.  `Linked h p xs n` says that the cells `xs` hang together in this
  order, with `p` in front of the first one and `n` behind the last one.  Lists are cut
  and glued at any place (`linked_append`), and the two writes a program makes where it
  glues are `Linked.setNext_last` and `Linked.setPrev_first`; everything else is a
  frame lemma.  A loop along the links sees the cells in their order (`loop_eq`), and
  the same list read backwards is linked the other way round (`Linked.reverse`).
-/
import Mathlib.Logic.Function.Basic
import Mathlib.Data.List.Nodup

namespace RdmaPaxos.DoublyLinked

variable {A σ : Type*}

/-! ## §1. Links. -/

/-- The link fields of all cells; `none` is the null pointer. -/
structure Links (A : Type*) where
  prev : A → Option A
  next : A → Option A

namespace Links

variable [DecidableEq A]

/-- `x->prev = p`. -/
def setPrev (h : Links A) (x : A) (p : Option A) : Links A := { h with prev := Function.update h.prev x p }

/-- `x->next = n`. -/
def setNext (h : Links A) (x : A) (n : Option A) : Links A := { h with next := Function.update h.next x n }

/-- `if (x) x->prev = p`. -/
def setPrev? (h : Links A) (x : Option A) (p : Option A) : Links A := x.elim h fun x => h.setPrev x p

/-- `if (x) x->next = n`. -/
def setNext? (h : Links A) (x : Option A) (n : Option A) : Links A := x.elim h fun x => h.setNext x n

@[simp] theorem setPrev_next (h : Links A) (x : A) (p : Option A) : (h.setPrev x p).next = h.next := rfl

@[simp] theorem setNext_prev (h : Links A) (x : A) (n : Option A) : (h.setNext x n).prev = h.prev := rfl

@[simp] theorem setPrev_prev_self (h : Links A) (x : A) (p : Option A) : (h.setPrev x p).prev x = p :=
  Function.update_self ..

@[simp] theorem setNext_next_self (h : Links A) (x : A) (n : Option A) : (h.setNext x n).next x = n :=
  Function.update_self ..

theorem setPrev_prev_ne (h : Links A) {x y : A} (p : Option A) (hne : y ≠ x) :
    (h.setPrev x p).prev y = h.prev y :=
  Function.update_of_ne hne ..

theorem setNext_next_ne (h : Links A) {x y : A} (n : Option A) (hne : y ≠ x) :
    (h.setNext x n).next y = h.next y :=
  Function.update_of_ne hne ..

/-- A new cell between two others: `x->prev = p; x->next = n`, and both neighbours point
to it. -/
def link (h : Links A) (x : A) (p n : Option A) : Links A :=
  (((h.setPrev x p).setNext x n).setNext? p (some x)).setPrev? n (some x)

/-- Other cells than the new one and its neighbours keep their links. -/
theorem link_of_ne (h : Links A) {x y : A} {p n : Option A} (hx : y ≠ x) (hp : p ≠ some y)
    (hn : n ≠ some y) : (h.link x p n).prev y = h.prev y ∧ (h.link x p n).next y = h.next y := by
  unfold link
  constructor
  · have hold : ∀ h' : Links A, ∀ q, (h'.setNext? q (some x)).prev = h'.prev :=
      fun h' q => by cases q <;> rfl
    cases n with
    | none => rw [setPrev?, Option.elim_none, hold, setNext_prev, setPrev_prev_ne _ _ hx]
    | some z =>
        have hz : y ≠ z := fun hyz => hn (by rw [hyz])
        rw [setPrev?, Option.elim_some, setPrev_prev_ne _ _ hz, hold, setNext_prev,
          setPrev_prev_ne _ _ hx]
  · have hold : ∀ h' : Links A, ∀ q, (h'.setPrev? q (some x)).next = h'.next :=
      fun h' q => by cases q <;> rfl
    rw [hold]
    cases p with
    | none => exact setNext_next_ne _ _ hx
    | some z =>
        have hz : y ≠ z := fun hyz => hp (by rw [hyz])
        exact (setNext_next_ne _ _ hz).trans (setNext_next_ne _ _ hx)

/-- A cell put in front of a list changes no other `next`. -/
theorem link_next_of_ne (h : Links A) {x y : A} {n : Option A} (hne : y ≠ x) :
    (h.link x none n).next y = h.next y := by
  cases n with
  | none => exact Links.setNext_next_ne _ _ hne
  | some z => exact Links.setNext_next_ne _ _ hne

/-- A cell is taken out: its neighbours point to each other. -/
def unlink (h : Links A) (x : A) : Links A :=
  let h₁ := h.setNext? (h.prev x) (h.next x)
  h₁.setPrev? (h₁.next x) (h₁.prev x)

/-- The first of the two writes does not change what the second one reads. -/
theorem unlink_eq (h : Links A) (x : A) :
    h.unlink x = (h.setNext? (h.prev x) (h.next x)).setPrev? (h.next x) (h.prev x) := by
  have hprev : ∀ y v, (h.setNext? y v).prev = h.prev := fun y v => by cases y <;> rfl
  have hnext : (h.setNext? (h.prev x) (h.next x)).next x = h.next x := by
    cases h.prev x with
    | none => rfl
    | some y =>
        rcases eq_or_ne x y with rfl | hne
        · exact h.setNext_next_self x _
        · exact h.setNext_next_ne _ hne
  show Links.setPrev? _ ((h.setNext? (h.prev x) (h.next x)).next x)
    ((h.setNext? (h.prev x) (h.next x)).prev x) = _
  rw [hnext, hprev]

end Links

/-- The heap read backwards. -/
def Links.flip (h : Links A) : Links A := ⟨h.next, h.prev⟩

/-! ## §2. Linked cells. -/

/-- The cells `xs`, in this order, between `p` and `n`. -/
def Linked (h : Links A) : Option A → List A → Option A → Prop
  | _, [], _ => True
  | p, x :: xs, n => h.prev x = p ∧ h.next x = xs.head?.or n ∧ Linked h (some x) xs n

section Linked
variable {h h' : Links A} {p n : Option A} {x : A} {xs ys : List A}

@[simp] theorem linked_nil : Linked h p [] n := trivial

/-- A chain is its first element and the rest. -/
theorem linked_cons :
    Linked h p (x :: xs) n ↔ h.prev x = p ∧ h.next x = xs.head?.or n ∧ Linked h (some x) xs n :=
  Iff.rfl

/-- A chain of one element. -/
theorem linked_singleton : Linked h p [x] n ↔ h.prev x = p ∧ h.next x = n := by
  simp [linked_cons]

/-- **Cutting and gluing.** -/
theorem linked_append : Linked h p (xs ++ ys) n
    ↔ Linked h p xs (ys.head?.or n) ∧ Linked h (xs.getLast?.or p) ys n := by
  induction xs generalizing p with
  | nil => simp
  | cons x xs ih =>
      have hhead : (xs ++ ys).head?.or n = xs.head?.or (ys.head?.or n) := by
        rw [List.head?_append, Option.or_assoc]
      have hlast : (x :: xs).getLast?.or p = xs.getLast?.or (some x) := by
        rw [List.getLast?_cons]
        cases xs.getLast? <;> rfl
      rw [List.cons_append, linked_cons, linked_cons, ih, hhead, hlast]
      simp only [and_assoc]

/-- **Frame rule.** -/
theorem Linked.congr (hl : Linked h p xs n)
    (heq : ∀ a ∈ xs, h'.prev a = h.prev a ∧ h'.next a = h.next a) : Linked h' p xs n := by
  induction xs generalizing p with
  | nil => trivial
  | cons x xs ih =>
      obtain ⟨hp, hn, hrest⟩ := hl
      obtain ⟨hp', hn'⟩ := heq x List.mem_cons_self
      exact ⟨hp'.trans hp, hn'.trans hn, ih hrest fun a ha => heq a (List.mem_cons_of_mem x ha)⟩

/-- Read backwards, the list is linked the other way round. -/
theorem Linked.reverse (hl : Linked h p xs n) : Linked h.flip n xs.reverse p := by
  induction xs generalizing p with
  | nil => trivial
  | cons x xs ih =>
      obtain ⟨hp, hn, hrest⟩ := hl
      rw [List.reverse_cons, linked_append, linked_singleton]
      refine ⟨?_, ?_, hp⟩
      · exact ih hrest
      · show h.next x = xs.reverse.getLast?.or n
        rw [hn, List.getLast?_reverse]

/-- Three parts of a list. -/
theorem linked_middle : Linked h none (xs ++ x :: ys) none
    ↔ Linked h none xs (some x) ∧ Linked h xs.getLast? [x] ys.head? ∧ Linked h (some x) ys none := by
  rw [linked_append, linked_cons, linked_singleton]
  simp only [Option.or_none, List.head?_cons, and_assoc]

/-- The neighbours of a cell. -/
theorem Linked.neighbours (hl : Linked h none (xs ++ x :: ys) none) :
    h.prev x = xs.getLast? ∧ h.next x = ys.head? :=
  linked_singleton.mp (linked_middle.mp hl).2.1

variable [DecidableEq A]

/-- Writing to `prev` of something else. -/
theorem Linked.setPrev_of_notMem (hl : Linked h p xs n) (hx : x ∉ xs) (v : Option A) :
    Linked (h.setPrev x v) p xs n :=
  hl.congr fun _ ha => ⟨h.setPrev_prev_ne v fun hax => hx (hax ▸ ha), rfl⟩

/-- Writing to `next` of something else. -/
theorem Linked.setNext_of_notMem (hl : Linked h p xs n) (hx : x ∉ xs) (v : Option A) :
    Linked (h.setNext x v) p xs n :=
  hl.congr fun _ ha => ⟨rfl, h.setNext_next_ne v fun hax => hx (hax ▸ ha)⟩

/-- The first cell gets another cell in front of it. -/
theorem Linked.setPrev_first (hl : Linked h p (x :: xs) n) (hx : x ∉ xs) (v : Option A) :
    Linked (h.setPrev x v) v (x :: xs) n := by
  obtain ⟨-, hn, hrest⟩ := hl
  exact ⟨h.setPrev_prev_self x v, hn, hrest.setPrev_of_notMem hx v⟩

/-- The last cell gets another cell behind it. -/
theorem Linked.setNext_last (hl : Linked h p (xs ++ [x]) n) (hx : x ∉ xs) (v : Option A) :
    Linked (h.setNext x v) p (xs ++ [x]) v := by
  rw [linked_append, linked_singleton] at hl ⊢
  obtain ⟨hfront, hp, -⟩ := hl
  exact ⟨hfront.setNext_of_notMem hx v, hp, h.setNext_next_self x v⟩

/-- `if (x) x->prev = v`, for what is behind a list. -/
theorem Linked.setPrev?_first (hl : Linked h p xs n) (hnodup : xs.Nodup) (v : Option A) :
    Linked (h.setPrev? xs.head? v) v xs n := by
  cases xs with
  | nil => trivial
  | cons x xs => exact hl.setPrev_first (List.nodup_cons.mp hnodup).1 v

/-- `if (x) x->next = v`, for what is in front of a list. -/
theorem Linked.setNext?_last (hl : Linked h p xs n) (hnodup : xs.Nodup) (v : Option A) :
    Linked (h.setNext? xs.getLast? v) p xs v := by
  rcases List.eq_nil_or_concat xs with rfl | ⟨ys, y, rfl⟩
  · trivial
  · rw [List.concat_eq_append] at hl hnodup ⊢
    rw [List.getLast?_concat]
    refine hl.setNext_last ?_ v
    exact fun hy => (List.nodup_append.mp hnodup).2.2 y hy y (List.mem_singleton.mpr rfl) rfl

/-- The same through a pointer that may be null. -/
theorem Linked.setPrev?_of_notMem (hl : Linked h p xs n) {y : Option A} (hy : ∀ x, y = some x → x ∉ xs)
    (v : Option A) : Linked (h.setPrev? y v) p xs n := by
  cases y with
  | none => exact hl
  | some x => exact hl.setPrev_of_notMem (hy x rfl) v

/-- And for `next`. -/
theorem Linked.setNext?_of_notMem (hl : Linked h p xs n) {y : Option A} (hy : ∀ x, y = some x → x ∉ xs)
    (v : Option A) : Linked (h.setNext? y v) p xs n := by
  cases y with
  | none => exact hl
  | some x => exact hl.setNext_of_notMem (hy x rfl) v

/-- **A new cell**, anywhere in a list. -/
theorem Linked.link (hl : Linked h none (xs ++ ys) none) (hnodup : (xs ++ ys).Nodup)
    (hx : x ∉ xs ++ ys) : Linked (h.link x xs.getLast? ys.head?) none (xs ++ x :: ys) none := by
  obtain ⟨hxs, hys, hdisj⟩ := List.nodup_append.mp hnodup
  rw [List.mem_append, not_or] at hx
  rw [linked_append] at hl
  have hlast : ∀ y, xs.getLast? = some y → y ∈ xs := fun y hy => List.mem_of_getLast? hy
  have hhead : ∀ y, ys.head? = some y → y ∈ ys := fun y hy => List.mem_of_head? hy
  -- the three parts, once the fields of the new cell are written
  have hfront := (hl.1.setPrev_of_notMem hx.1 xs.getLast?).setNext_of_notMem hx.1 ys.head?
  have hmid : Linked ((h.setPrev x xs.getLast?).setNext x ys.head?) xs.getLast? [x] ys.head? :=
    linked_singleton.mpr ⟨Links.setPrev_prev_self .., Links.setNext_next_self ..⟩
  have hback := (hl.2.setPrev_of_notMem hx.2 xs.getLast?).setNext_of_notMem hx.2 ys.head?
  refine linked_middle.mpr ⟨?_, ?_, ?_⟩
  · exact (hfront.setNext?_last hxs (some x)).setPrev?_of_notMem
      (fun y hy hmem => hdisj y hmem y (hhead y hy) rfl) _
  · refine (hmid.setNext?_of_notMem (fun y hy hmem => ?_) _).setPrev?_of_notMem (fun y hy hmem => ?_) _
    · exact hx.1 (List.mem_singleton.mp hmem ▸ hlast y hy)
    · exact hx.2 (List.mem_singleton.mp hmem ▸ hhead y hy)
  · exact (hback.setNext?_of_notMem (fun y hy hmem => hdisj y (hlast y hy) y hmem rfl) _).setPrev?_first
      hys _

/-- A cell in front of the list. -/
theorem Linked.link_first (hl : Linked h none ys none) (hnodup : ys.Nodup) (hx : x ∉ ys) :
    Linked (h.link x none ys.head?) none (x :: ys) none := by
  have hlist : Linked h none ([] ++ ys) none := hl
  exact hlist.link hnodup hx

/-- A cell behind the list. -/
theorem Linked.link_last (hl : Linked h none xs none) (hnodup : xs.Nodup) (hx : x ∉ xs) :
    Linked (h.link x xs.getLast? none) none (xs ++ [x]) none := by
  have hlist : Linked h none (xs ++ []) none := by rw [List.append_nil]; exact hl
  exact hlist.link (by rw [List.append_nil]; exact hnodup) (by rw [List.append_nil]; exact hx)

/-- A list, cut at one of its cells. -/
theorem Linked.cut (hl : Linked h none xs none) (hnodup : xs.Nodup) (hx : x ∈ xs) :
    ∃ front back, xs = front ++ x :: back ∧ xs.erase x = front ++ back ∧ x ∉ front
      ∧ h.prev x = front.getLast? ∧ h.next x = back.head? := by
  obtain ⟨front, back, rfl⟩ := List.append_of_mem hx
  have hnot : x ∉ front := fun hmem =>
    (List.nodup_append.mp hnodup).2.2 x hmem x List.mem_cons_self rfl
  refine ⟨front, back, rfl, ?_, hnot, hl.neighbours⟩
  rw [List.erase_append_right _ hnot, List.erase_cons_head]

/-- **A cell taken out.** -/
theorem Linked.unlink (hl : Linked h none (xs ++ x :: ys) none) (hnodup : (xs ++ x :: ys).Nodup) :
    Linked (h.unlink x) none (xs ++ ys) none := by
  obtain ⟨hp, hn⟩ := hl.neighbours
  obtain ⟨hfront, -, hback⟩ := linked_middle.mp hl
  obtain ⟨hxs, hxys, hdisj⟩ := List.nodup_append.mp hnodup
  obtain ⟨hx, hys⟩ := List.nodup_cons.mp hxys
  have hlast : ∀ y, xs.getLast? = some y → y ∈ xs := fun y hy => List.mem_of_getLast? hy
  have hhead : ∀ y, ys.head? = some y → y ∈ ys := fun y hy => List.mem_of_head? hy
  rw [Links.unlink_eq, hp, hn, linked_append, Option.or_none, Option.or_none]
  constructor
  · exact (hfront.setNext?_last hxs ys.head?).setPrev?_of_notMem
      (fun y hy hmem => hdisj y hmem y (List.mem_cons_of_mem x (hhead y hy)) rfl) _
  · exact (hback.setNext?_of_notMem
      (fun y hy hmem => hdisj y (hlast y hy) y (List.mem_cons_of_mem x hmem) rfl) _).setPrev?_first hys _

variable {q r : Option A}

/-- A list is not disturbed by a new cell elsewhere. -/
theorem Linked.link_of_notMem (hl : Linked h p xs n) (hx : x ∉ xs) (hq : ∀ y, q = some y → y ∉ xs)
    (hr : ∀ y, r = some y → y ∉ xs) : Linked (h.link x q r) p xs n :=
  (((hl.setPrev_of_notMem hx q).setNext_of_notMem hx r).setNext?_of_notMem hq _).setPrev?_of_notMem hr _

/-- A list is not disturbed when a cell is taken out elsewhere. -/
theorem Linked.unlink_of_notMem (hl : Linked h p xs n) (hq : ∀ y, h.prev x = some y → y ∉ xs)
    (hr : ∀ y, h.next x = some y → y ∉ xs) : Linked (h.unlink x) p xs n := by
  rw [Links.unlink_eq]
  exact (hl.setNext?_of_notMem hq _).setPrev?_of_notMem hr _

end Linked

/-- Where a cell is the first of a list without repetitions. -/
theorem head?_middle {x : A} {front back : List A} (h : (front ++ x :: back).Nodup) :
    (front ++ x :: back).head? = some x ↔ front = [] := by
  cases front with
  | nil => exact ⟨fun _ => rfl, fun _ => rfl⟩
  | cons y front =>
      refine ⟨fun heq => ?_, nofun⟩
      obtain rfl : y = x := Option.some.inj heq
      exact absurd (List.mem_append_right front List.mem_cons_self) (List.nodup_cons.mp h).1

/-- Where a cell is the last of a list without repetitions. -/
theorem getLast?_middle {x : A} {front back : List A} (h : (front ++ x :: back).Nodup) :
    (front ++ x :: back).getLast? = some x ↔ back = [] := by
  have hrev : (back.reverse ++ x :: front.reverse).Nodup := by
    rw [← List.nodup_reverse] at h
    simpa using h
  rw [← List.reverse_eq_nil_iff, ← head?_middle hrev, ← List.head?_reverse]
  simp

/-! ## §3. Loops along the links. -/

/-- `while (x) { y = next(x); body(x); x = y; }`, for at most `fuel` rounds; `none` if that
is not enough. -/
def loop (next : σ → A → Option A) (body : σ → A → σ) : Nat → Option A → σ → Option σ
  | _, none, s => some s
  | 0, some _, _ => none
  | fuel + 1, some a, s => loop next body fuel (next s a) (body s a)

/-- **The rule for loops**: with `I xs s` the cells still to come are `xs`. -/
theorem loop_eq (next : σ → A → Option A) (body : σ → A → σ) {I : List A → σ → Prop}
    (hstep : ∀ x xs s, I (x :: xs) s → next s x = xs.head? ∧ I xs (body s x)) {fuel : Nat} {xs : List A}
    {s : σ} (hfuel : xs.length ≤ fuel) (hI : I xs s) :
    loop next body fuel xs.head? s = some (xs.foldl body s) ∧ I [] (xs.foldl body s) := by
  induction xs generalizing fuel s with
  | nil => cases fuel <;> exact ⟨rfl, hI⟩
  | cons x xs ih =>
      obtain ⟨fuel, rfl⟩ : ∃ k, fuel = k + 1 := Nat.exists_eq_add_one_of_ne_zero
        (Nat.ne_of_gt (Nat.lt_of_lt_of_le (Nat.succ_pos _) hfuel))
      obtain ⟨hnext, hI'⟩ := hstep x xs s hI
      show loop next body fuel (next s x) (body s x) = _ ∧ _
      rw [hnext]
      exact ih (Nat.le_of_succ_le_succ hfuel) hI'

end RdmaPaxos.DoublyLinked
