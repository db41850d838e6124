/-
  RdmaPaxos.Output.AdList
  ───────────────────────
  **THE LINKED LISTS** (`output/adlist.c`).

  The hashes of a connection and the threads the hooks ignore are kept in doubly linked
  lists.  A `list` is its record; the nodes of all lists are in one heap, field by field.
  `malloc` gives an address or fails, as an argument of the function that calls it; `none`
  as the result of a function is a null pointer it has gone through.

  `ListOf h l xs`: the list `l` consists of the nodes `xs`.  Every operation is the
  operation of its name on these (`adlist_implements_list`).
-/
import RdmaPaxos.Lib.DoublyLinked

namespace RdmaPaxos.Output

open RdmaPaxos.DoublyLinked

variable {A V : Type}

/-! ## §1. Lists. -/

/-- The `listNode`s of all lists. -/
structure NodeHeap (A V : Type) where
  links : Links A
  value : A → V

/-- `list`.  The method `dup` is used by `listDup` only; of `free`, whether it is set. -/
structure AdList (A V : Type) where
  head : Option A
  tail : Option A
  len : Nat
  free : Bool
  matchWith : Option (V → V → Bool)

/-- `listCreate`. -/
def listCreate : AdList A V := ⟨none, none, 0, false, none⟩

/-- A new list, and its methods set. -/
def newList (free : Bool) (matchWith : Option (V → V → Bool)) : AdList A V :=
  { (listCreate : AdList A V) with free := free, matchWith := matchWith }

section Operations
variable [DecidableEq A]

/-- `node->value = value`. -/
def NodeHeap.setValue (h : NodeHeap A V) (node : A) (value : V) : NodeHeap A V :=
  { h with value := Function.update h.value node value }

/-- A node between two others. -/
def NodeHeap.link (h : NodeHeap A V) (node : A) (prev next : Option A) : NodeHeap A V :=
  { h with links := h.links.link node prev next }

/-- `listAddNodeHead`. -/
def listAddNodeHead (h : NodeHeap A V) (l : AdList A V) (node : Option A) (value : V) :
    Option (NodeHeap A V × AdList A V) :=
  match node with
  | none => some (h, l)
  | some node =>
      let h := h.setValue node value
      if l.len = 0 then
        some (h.link node none none,
          { l with head := some node, tail := some node, len := l.len + 1 })
      else do
        let head ← l.head
        some (h.link node none (some head), { l with head := some node, len := l.len + 1 })

/-- `listAddNodeTail`. -/
def listAddNodeTail (h : NodeHeap A V) (l : AdList A V) (node : Option A) (value : V) :
    Option (NodeHeap A V × AdList A V) :=
  match node with
  | none => some (h, l)
  | some node =>
      let h := h.setValue node value
      if l.len = 0 then
        some (h.link node none none,
          { l with head := some node, tail := some node, len := l.len + 1 })
      else do
        let tail ← l.tail
        some (h.link node (some tail) none, { l with tail := some node, len := l.len + 1 })

/-- `listInsertNode`. -/
def listInsertNode (h : NodeHeap A V) (l : AdList A V) (oldNode : A) (node : Option A) (value : V)
    (after : Bool) : NodeHeap A V × AdList A V :=
  match node with
  | none => (h, l)
  | some node =>
      let h := h.setValue node value
      if after then
        (h.link node (some oldNode) (h.links.next oldNode),
          { l with tail := if l.tail = some oldNode then some node else l.tail, len := l.len + 1 })
      else
        (h.link node (h.links.prev oldNode) (some oldNode),
          { l with head := if l.head = some oldNode then some node else l.head, len := l.len + 1 })

/-- `listDelNode`. -/
def listDelNode (h : NodeHeap A V) (l : AdList A V) (node : A) : NodeHeap A V × AdList A V :=
  ({ h with links := h.links.unlink node },
    { l with
      head := if h.links.prev node = none then h.links.next node else l.head
      tail := if h.links.next node = none then h.links.prev node else l.tail
      len := l.len - 1 })

/-- `listRotate`. -/
def listRotate (h : NodeHeap A V) (l : AdList A V) : Option (NodeHeap A V × AdList A V) :=
  if l.len ≤ 1 then some (h, l)
  else do
    let tail ← l.tail
    let newTail ← h.links.prev tail
    let head ← l.head
    let links := h.links.setNext newTail none
    some ({ h with links := ((links.setPrev head (some tail)).setPrev tail none).setNext tail (some head) },
      { l with head := some tail, tail := some newTail })

end Operations

/-! ## §2. Reading and releasing. -/

/-- `while (index-- && n) n = n->next`. -/
def walk (next : A → Option A) : Nat → Option A → Option A
  | 0, n => n
  | _ + 1, none => none
  | index + 1, some n => walk next index (next n)

/-- `listIndex`. -/
def listIndex (h : NodeHeap A V) (l : AdList A V) (index : Int) : Option A :=
  if index < 0 then walk h.links.prev (-index - 1).toNat l.tail
  else walk h.links.next index.toNat l.head

/-- `listIter`; `fromHead` is `direction == AL_START_HEAD`. -/
structure ListIter (A : Type) where
  next : Option A
  fromHead : Bool

/-- `listRewind`. -/
def listRewind (l : AdList A V) : ListIter A := ⟨l.head, true⟩

/-- `listRewindTail`. -/
def listRewindTail (l : AdList A V) : ListIter A := ⟨l.tail, false⟩

/-- `listNext`. -/
def listNext (h : NodeHeap A V) (iter : ListIter A) : Option A × ListIter A :=
  match iter.next with
  | none => (none, iter)
  | some current =>
      (some current,
        { iter with next := if iter.fromHead then h.links.next current else h.links.prev current })

/-- `while ((node = listNext(iter)) != NULL)`, up to the first node that `stop` accepts;
`none` if `fuel` rounds do not suffice. -/
def listLoop [DecidableEq A] (h : NodeHeap A V) (stop : A → Bool) : Nat → ListIter A → Option (Option A)
  | 0, iter => if iter.next = none then some none else none
  | fuel + 1, iter =>
      match listNext h iter with
      | (none, _) => some none
      | (some node, iter) => if stop node then some (some node) else listLoop h stop fuel iter

/-- The test of `listSearchKey`: the method `match`, or else equality. -/
def AdList.hits [DecidableEq V] (l : AdList A V) (key value : V) : Bool :=
  match l.matchWith with
  | some matchWith => matchWith value key
  | none => decide (key = value)

/-- `listSearchKey`.  The iterator it allocates is taken to be there: the source does not
look whether `malloc` gave one. -/
def listSearchKey [DecidableEq A] [DecidableEq V] (h : NodeHeap A V) (fuel : Nat) (l : AdList A V)
    (key : V) : Option (Option A) :=
  listLoop h (fun node => l.hits key (h.value node)) fuel (listRewind l)

/-- The nodes an iterator gives. -/
def listNodes [DecidableEq A] (h : NodeHeap A V) : Nat → ListIter A → Option (List A)
  | 0, iter => if iter.next = none then some [] else none
  | fuel + 1, iter =>
      match listNext h iter with
      | (none, _) => some []
      | (some node, iter) => (listNodes h fuel iter).map (node :: ·)

/-- `listRelease`, `len` nodes from `current` on: the nodes freed and the values passed to
the method `free`. -/
def releaseNodes (h : NodeHeap A V) (free : Bool) : Nat → Option A → Option (List A × List V)
  | 0, _ => some ([], [])
  | _ + 1, none => none
  | len + 1, some current =>
      (releaseNodes h free len (h.links.next current)).map fun freed =>
        (current :: freed.1, if free then h.value current :: freed.2 else freed.2)

/-- `listRelease`: all nodes are freed, and then the list. -/
def listRelease (h : NodeHeap A V) (l : AdList A V) : Option (List A × List V) :=
  releaseNodes h l.free l.len l.head

/-! ## §3. The nodes of a list. -/

/-- The list consists of the nodes `xs`. -/
structure ListOf (h : NodeHeap A V) (l : AdList A V) (xs : List A) : Prop where
  linked : Linked h.links none xs none
  head : l.head = xs.head?
  tail : l.tail = xs.getLast?
  len : l.len = xs.length
  nodup : xs.Nodup

section ListOf
variable {h : NodeHeap A V} {l : AdList A V} {xs front back : List A} {node : A}

/-- A new list has no nodes. -/
theorem listOf_new (h : NodeHeap A V) (free : Bool) (matchWith : Option (V → V → Bool)) :
    ListOf h (newList free matchWith) [] :=
  ⟨trivial, rfl, rfl, rfl, List.nodup_nil⟩

variable [DecidableEq A]

/-- **A new node**, anywhere in the list. -/
theorem ListOf.insert (hl : ListOf h l (front ++ back)) (hnode : node ∉ front ++ back) (value : V) :
    ListOf ((h.setValue node value).link node front.getLast? back.head?)
      { l with head := (front ++ node :: back).head?, tail := (front ++ node :: back).getLast?,
               len := l.len + 1 } (front ++ node :: back) := by
  refine ⟨hl.linked.link hl.nodup hnode, rfl, rfl, ?_, ?_⟩
  · show l.len + 1 = _
    rw [hl.len, List.length_append, List.length_append, List.length_cons, Nat.add_assoc]
  · have hperm : (front ++ node :: back).Perm (node :: (front ++ back)) := List.perm_middle
    exact hperm.nodup_iff.mpr (List.nodup_cons.mpr ⟨hnode, hl.nodup⟩)

/-- What `listAddNodeHead` does to the pointers. -/
theorem ListOf.addNodeHead (hl : ListOf h l xs) (node : A) (value : V) :
    listAddNodeHead h l (some node) value
      = some ((h.setValue node value).link node none xs.head?,
        { l with head := some node, tail := (node :: xs).getLast?, len := l.len + 1 }) := by
  unfold listAddNodeHead
  rw [hl.len, hl.head]
  cases xs with
  | nil => rfl
  | cons x xs =>
      have htail : (node :: x :: xs).getLast? = l.tail := by rw [hl.tail]; rfl
      rw [htail]
      rfl

/-- What `listAddNodeTail` does to the pointers. -/
theorem ListOf.addNodeTail (hl : ListOf h l xs) (node : A) (value : V) :
    listAddNodeTail h l (some node) value
      = some ((h.setValue node value).link node xs.getLast? none,
        { l with head := (xs ++ [node]).head?, tail := some node, len := l.len + 1 }) := by
  unfold listAddNodeTail
  rw [hl.len, hl.tail]
  rcases List.eq_nil_or_concat xs with rfl | ⟨ys, y, rfl⟩
  · rfl
  · rw [List.concat_eq_append] at hl ⊢
    have hhead : (ys ++ [y] ++ [node]).head? = l.head := by
      rw [hl.head]
      cases ys <;> rfl
    rw [hhead, List.getLast?_concat, List.length_append]
    rfl

/-- What `listInsertNode` does behind a node. -/
theorem ListOf.insertAfter (hl : ListOf h l (front ++ node :: back)) (new : A) (value : V) :
    listInsertNode h l node (some new) value true
      = ((h.setValue new value).link new (front ++ [node]).getLast? back.head?,
        { l with head := (front ++ [node] ++ new :: back).head?,
                 tail := (front ++ [node] ++ new :: back).getLast?, len := l.len + 1 }) := by
  have hhead : (front ++ [node] ++ new :: back).head? = l.head := by
    rw [hl.head]
    cases front <;> rfl
  have htail : (front ++ [node] ++ new :: back).getLast?
      = if l.tail = some node then some new else l.tail := by
    rw [hl.tail]
    split
    next hlast => rw [(getLast?_middle hl.nodup).mp hlast, List.getLast?_concat]
    next hlast =>
      obtain ⟨y, back, rfl⟩ := List.exists_cons_of_ne_nil
        fun hnil => hlast ((getLast?_middle hl.nodup).mpr hnil)
      simp [List.getLast?_append]
  rw [hhead, htail, List.getLast?_concat]
  unfold listInsertNode
  rw [← hl.linked.neighbours.2]
  rfl

/-- What it does before one. -/
theorem ListOf.insertBefore (hl : ListOf h l (front ++ node :: back)) (new : A) (value : V) :
    listInsertNode h l node (some new) value false
      = ((h.setValue new value).link new front.getLast? (node :: back).head?,
        { l with head := (front ++ new :: node :: back).head?,
                 tail := (front ++ new :: node :: back).getLast?, len := l.len + 1 }) := by
  have htail : (front ++ new :: node :: back).getLast? = l.tail := by
    rw [hl.tail]
    simp [List.getLast?_append]
  have hhead : (front ++ new :: node :: back).head?
      = if l.head = some node then some new else l.head := by
    rw [hl.head]
    split
    next hfirst => rw [(head?_middle hl.nodup).mp hfirst]; rfl
    next hfirst =>
      obtain ⟨y, front, rfl⟩ := List.exists_cons_of_ne_nil
        fun hnil => hfirst ((head?_middle hl.nodup).mpr hnil)
      rfl
  rw [hhead, htail, List.head?_cons]
  unfold listInsertNode
  rw [← hl.linked.neighbours.1]
  rfl

/-- **A node less.** -/
theorem ListOf.delNode (hl : ListOf h l (front ++ node :: back)) :
    ListOf (listDelNode h l node).1 (listDelNode h l node).2 (front ++ back) := by
  obtain ⟨hprev, hnext⟩ := hl.linked.neighbours
  refine ⟨hl.linked.unlink hl.nodup, ?_, ?_, ?_, ?_⟩
  · show (if h.links.prev node = none then _ else l.head) = _
    rw [hprev, hnext, hl.head]
    cases front with
    | nil => rfl
    | cons y front => exact if_neg (by simp)
  · show (if h.links.next node = none then _ else l.tail) = _
    rw [hprev, hnext, hl.tail]
    cases back with
    | nil => rw [List.append_nil]; rfl
    | cons y back =>
        rw [if_neg (by simp)]
        simp [List.getLast?_append]
  · show l.len - 1 = _
    rw [hl.len, List.length_append, List.length_append, List.length_cons]
    rfl
  · exact (List.nodup_cons.mp (List.perm_middle.nodup_iff.mp hl.nodup)).2

/-- The writes of `listRotate` behind the first one put the old tail in front. -/
theorem rotate_links (links : Links A) {tail head : A} (hne : head ≠ tail) :
    ((links.setPrev head (some tail)).setPrev tail none).setNext tail (some head)
      = links.link tail none (some head) := by
  unfold Links.link Links.setPrev? Links.setNext? Links.setPrev Links.setNext
  simp only [Option.elim_none, Option.elim_some, Links.mk.injEq, and_true]
  exact Function.update_comm hne ..

/-- **The last node becomes the first.** -/
theorem ListOf.rotate (hl : ListOf h l (xs ++ [node])) :
    ∃ h' l', listRotate h l = some (h', l') ∧ ListOf h' l' (node :: xs) ∧ h'.value = h.value
      ∧ l'.free = l.free ∧ l'.matchWith = l.matchWith := by
  have hlen := hl.len
  rw [List.length_append, List.length_singleton] at hlen
  unfold listRotate
  rcases List.eq_nil_or_concat xs with rfl | ⟨ys, newTail, hxs⟩
  · rw [if_pos (by rw [hlen]; exact Nat.le_refl 1)]
    exact ⟨h, l, rfl, hl, rfl, rfl, rfl⟩
  · rw [List.concat_eq_append] at hxs
    have hnode : node ∉ xs := fun hmem =>
      (List.nodup_append.mp hl.nodup).2.2 node hmem node List.mem_cons_self rfl
    have hxsn : xs.Nodup := (List.nodup_append.mp hl.nodup).1
    obtain ⟨head, hhead⟩ : ∃ head, xs.head? = some head := by
      rw [hxs]
      cases ys <;> exact ⟨_, rfl⟩
    have hne : head ≠ node := fun heq => hnode (heq ▸ List.mem_of_head? hhead)
    have hlhead : l.head = some head := by rw [hl.head, List.head?_append, hhead]; rfl
    have hltail : l.tail = some node := by rw [hl.tail, List.getLast?_concat]
    have hprev : h.links.prev node = some newTail := by
      rw [hl.linked.neighbours.1, hxs, List.getLast?_concat]
    rw [if_neg (by rw [hlen, hxs, List.length_append, List.length_singleton]; omega), hltail, hlhead]
    simp only [Option.bind_eq_bind, Option.bind_some, hprev, rotate_links _ hne]
    refine ⟨_, _, rfl, ⟨?_, rfl, ?_, ?_, List.nodup_cons.mpr ⟨hnode, hxsn⟩⟩, rfl, rfl, rfl⟩
    · -- the rest of the list ends where the last node was
      have hrest : Linked (h.links.setNext newTail none) none xs none := by
        have hfront := (linked_append.mp hl.linked).1
        rw [hxs] at hfront hxsn ⊢
        refine hfront.setNext_last (fun hmem => ?_) none
        exact (List.nodup_append.mp hxsn).2.2 newTail hmem newTail List.mem_cons_self rfl
      rw [← hhead]
      exact hrest.link_first hxsn hnode
    · rw [hxs, ← List.cons_append, List.getLast?_concat]
    · show l.len = _
      rw [hlen, List.length_cons]

end ListOf

/-! ## §4. Reading. -/

/-- The links as an iterator goes along them. -/
def NodeHeap.along (h : NodeHeap A V) (fromHead : Bool) : Links A :=
  if fromHead then h.links else h.links.flip

section Reading
variable {h : NodeHeap A V} {l : AdList A V} {xs : List A} {p : Option A} {fuel : Nat} {fromHead : Bool}

theorem listNext_some (h : NodeHeap A V) (node : A) (fromHead : Bool) :
    listNext h ⟨some node, fromHead⟩ = (some node, ⟨(h.along fromHead).next node, fromHead⟩) := by
  cases fromHead <;> rfl

/-- Following `next` a number of times. -/
theorem walk_eq {links : Links A} (hl : Linked links p xs none) (index : Nat) :
    walk links.next index xs.head? = xs[index]? := by
  induction xs generalizing p index with
  | nil => cases index <;> rfl
  | cons x xs ih =>
      cases index with
      | zero => rfl
      | succ index =>
          obtain ⟨-, hnext, hrest⟩ := hl
          rw [List.head?_cons, walk, hnext, Option.or_none, List.getElem?_cons_succ]
          exact ih hrest index

/-- An index counts from the head, a negative one from the tail. -/
theorem ListOf.index (hl : ListOf h l xs) (index : Nat) :
    listIndex h l index = xs[index]? ∧ listIndex h l (-index - 1) = xs.reverse[index]? := by
  constructor
  · unfold listIndex
    rw [if_neg (by omega), hl.head, Int.toNat_natCast]
    exact walk_eq hl.linked index
  · have hindex : (-(-(index : Int) - 1) - 1).toNat = index := by omega
    unfold listIndex
    rw [if_pos (by omega), hindex, hl.tail, ← List.head?_reverse]
    exact walk_eq hl.linked.reverse index

/-- Every node is freed once, in order. -/
theorem releaseNodes_eq (hl : Linked h.links p xs none) (free : Bool) :
    releaseNodes h free xs.length xs.head? = some (xs, if free then xs.map h.value else []) := by
  induction xs generalizing p with
  | nil => cases free <;> rfl
  | cons x xs ih =>
      obtain ⟨-, hnext, hrest⟩ := hl
      rw [List.head?_cons, List.length_cons, releaseNodes, hnext, Option.or_none, ih hrest]
      cases free <;> rfl

/-- `listRelease` frees every node of the list, once. -/
theorem ListOf.release (hl : ListOf h l xs) :
    listRelease h l = some (xs, if l.free then xs.map h.value else []) := by
  unfold listRelease
  rw [hl.len, hl.head]
  exact releaseNodes_eq hl.linked l.free

variable [DecidableEq A]

/-- An iterator visits the nodes in its direction. -/
theorem listNodes_eq (hl : Linked (h.along fromHead) p xs none) (hfuel : xs.length ≤ fuel) :
    listNodes h fuel ⟨xs.head?, fromHead⟩ = some xs := by
  induction xs generalizing p fuel with
  | nil => cases fuel <;> rfl
  | cons x xs ih =>
      obtain ⟨fuel, rfl⟩ := Nat.exists_eq_add_one_of_ne_zero
        (Nat.ne_of_gt (Nat.lt_of_lt_of_le (Nat.succ_pos _) hfuel))
      obtain ⟨-, hnext, hrest⟩ := hl
      rw [List.head?_cons, listNodes, listNext_some, hnext, Option.or_none]
      show (listNodes h fuel ⟨xs.head?, fromHead⟩).map _ = _
      rw [ih hrest (Nat.le_of_succ_le_succ hfuel)]
      rfl

/-- A loop that stops at the first node of a kind. -/
theorem listLoop_eq (hl : Linked (h.along fromHead) p xs none) (hfuel : xs.length ≤ fuel)
    (stop : A → Bool) : listLoop h stop fuel ⟨xs.head?, fromHead⟩ = some (xs.find? stop) := by
  induction xs generalizing p fuel with
  | nil => cases fuel <;> rfl
  | cons x xs ih =>
      obtain ⟨fuel, rfl⟩ := Nat.exists_eq_add_one_of_ne_zero
        (Nat.ne_of_gt (Nat.lt_of_lt_of_le (Nat.succ_pos _) hfuel))
      obtain ⟨-, hnext, hrest⟩ := hl
      rw [List.head?_cons, listLoop, listNext_some, hnext, Option.or_none, List.find?_cons]
      show (if stop x = true then _ else listLoop h stop fuel ⟨xs.head?, fromHead⟩) = _
      rw [ih hrest (Nat.le_of_succ_le_succ hfuel)]
      cases stop x <;> rfl

/-- An iterator gives the nodes in their order, or from the tail. -/
theorem ListOf.nodes (hl : ListOf h l xs) (hfuel : xs.length ≤ fuel) :
    listNodes h fuel (listRewind l) = some xs ∧ listNodes h fuel (listRewindTail l) = some xs.reverse := by
  constructor
  · unfold listRewind
    rw [hl.head]
    exact listNodes_eq hl.linked hfuel
  · unfold listRewindTail
    rw [hl.tail, ← List.head?_reverse]
    exact listNodes_eq hl.linked.reverse (by rw [List.length_reverse]; exact hfuel)

/-- `listSearchKey` finds the first node with a matching value. -/
theorem ListOf.search [DecidableEq V] (hl : ListOf h l xs) (hfuel : xs.length ≤ fuel) (key : V) :
    listSearchKey h fuel l key = some (xs.find? fun node => l.hits key (h.value node)) := by
  have halong : Linked (h.along true) none xs none := hl.linked
  unfold listSearchKey listRewind
  rw [hl.head]
  exact listLoop_eq halong hfuel _

end Reading

/-! ## §5. Runs. -/

/-- The operations on a list, with what `malloc` returns. -/
inductive ListOp (A V : Type) where
  | addHead (node : Option A) (value : V)
  | addTail (node : Option A) (value : V)
  | insert (oldNode : A) (node : Option A) (value : V) (after : Bool)
  | del (node : A)
  | rotate

section Runs
variable [DecidableEq A]

/-- An operation on the list in memory. -/
def ListOp.run (s : NodeHeap A V × AdList A V) : ListOp A V → Option (NodeHeap A V × AdList A V)
  | .addHead node value => listAddNodeHead s.1 s.2 node value
  | .addTail node value => listAddNodeTail s.1 s.2 node value
  | .insert oldNode node value after => some (listInsertNode s.1 s.2 oldNode node value after)
  | .del node => some (listDelNode s.1 s.2 node)
  | .rotate => listRotate s.1 s.2

/-- Nodes put beside `oldNode`. -/
def insertBeside (oldNode : A) (new : List (A × V)) (after : Bool) (m : List (A × V)) : List (A × V) :=
  m.flatMap fun e => if e.1 = oldNode then if after then e :: new else new ++ [e] else [e]

/-- The same on the list of nodes and values. -/
def ListOp.spec (m : List (A × V)) : ListOp A V → List (A × V)
  | .addHead node value => (node.map fun a => (a, value)).toList ++ m
  | .addTail node value => m ++ (node.map fun a => (a, value)).toList
  | .insert oldNode node value after => insertBeside oldNode (node.map fun a => (a, value)).toList after m
  | .del node => m.filter fun e => e.1 ≠ node
  | .rotate => m.getLast?.toList ++ m.dropLast

/-- `malloc` returns a node that is not in the list; other arguments are nodes of it. -/
def ListOp.Proper (m : List (A × V)) : ListOp A V → Prop
  | .addHead node _ => ∀ a ∈ node, a ∉ m.map Prod.fst
  | .addTail node _ => ∀ a ∈ node, a ∉ m.map Prod.fst
  | .insert oldNode node _ _ => oldNode ∈ m.map Prod.fst ∧ ∀ a ∈ node, a ∉ m.map Prod.fst
  | .del node => node ∈ m.map Prod.fst
  | .rotate => True

instance (m : List (A × V)) : (o : ListOp A V) → Decidable (o.Proper m)
  | .addHead node _ => inferInstanceAs (Decidable (∀ a ∈ node, a ∉ m.map Prod.fst))
  | .addTail node _ => inferInstanceAs (Decidable (∀ a ∈ node, a ∉ m.map Prod.fst))
  | .insert oldNode node _ _ =>
      inferInstanceAs (Decidable (oldNode ∈ m.map Prod.fst ∧ ∀ a ∈ node, a ∉ m.map Prod.fst))
  | .del node => inferInstanceAs (Decidable (node ∈ m.map Prod.fst))
  | .rotate => inferInstanceAs (Decidable True)

/-- Every operation of the sequence is proper when it is made. -/
def ProperOps : List (A × V) → List (ListOp A V) → Prop
  | _, [] => True
  | m, o :: ops => o.Proper m ∧ ProperOps (o.spec m) ops

instance : (m : List (A × V)) → (ops : List (ListOp A V)) → Decidable (ProperOps m ops)
  | _, [] => inferInstanceAs (Decidable True)
  | m, o :: ops =>
      have := instDecidableProperOps (o.spec m) ops
      inferInstanceAs (Decidable (o.Proper m ∧ ProperOps (o.spec m) ops))

/-- The list has the nodes and values `m`. -/
structure Contains (h : NodeHeap A V) (l : AdList A V) (m : List (A × V)) : Prop where
  list : ListOf h l (m.map Prod.fst)
  value : ∀ e ∈ m, h.value e.1 = e.2

variable {h : NodeHeap A V} {l : AdList A V} {m front back : List (A × V)}

/-- **A node with its value.** -/
theorem Contains.insert (hm : Contains h l (front ++ back)) {node : A}
    (hnode : node ∉ (front ++ back).map Prod.fst) (value : V) :
    Contains ((h.setValue node value).link node (front.map Prod.fst).getLast? (back.map Prod.fst).head?)
      { l with head := ((front ++ (node, value) :: back).map Prod.fst).head?,
               tail := ((front ++ (node, value) :: back).map Prod.fst).getLast?,
               len := l.len + 1 } (front ++ (node, value) :: back) := by
  have hlist := hm.list
  rw [List.map_append] at hlist hnode
  constructor
  · rw [List.map_append, List.map_cons]
    exact hlist.insert hnode value
  · intro e he
    show Function.update h.value node value e.1 = e.2
    rcases List.mem_cons.mp (List.perm_middle.mem_iff.mp he) with rfl | hmem
    · exact Function.update_self ..
    · have hne : e.1 ≠ node := by
        rintro rfl
        rw [← List.map_append] at hnode
        exact hnode (List.mem_map_of_mem hmem)
      rw [Function.update_of_ne hne]
      exact hm.value e hmem

omit [DecidableEq A] in
/-- The node an operation refers to, in the list. -/
theorem Contains.cut (hm : Contains h l m) {node : A} (hnode : node ∈ m.map Prod.fst) :
    ∃ front e back, m = front ++ e :: back ∧ e.1 = node ∧ (∀ e' ∈ front ++ back, e'.1 ≠ node) := by
  obtain ⟨e, he, rfl⟩ := List.mem_map.mp hnode
  obtain ⟨front, back, rfl⟩ := List.append_of_mem he
  refine ⟨front, e, back, rfl, rfl, fun e' he' heq => ?_⟩
  have hnodup := hm.list.nodup
  rw [(List.perm_middle.map Prod.fst).nodup_iff, List.map_cons, List.nodup_cons, ← heq] at hnodup
  exact hnodup.1 (List.mem_map_of_mem he')

/-- Nothing is inserted beside other nodes. -/
theorem insertBeside_of_ne {node : A} (new : List (A × V)) (after : Bool) (hm : ∀ e ∈ m, e.1 ≠ node) :
    insertBeside node new after m = m := by
  unfold insertBeside
  induction m with
  | nil => rfl
  | cons e m ih =>
      rw [List.flatMap_cons, if_neg (hm e List.mem_cons_self),
        ih fun e' he' => hm e' (List.mem_cons_of_mem e he')]
      rfl

/-- An insertion beside an entry that is there. -/
theorem insertBeside_eq {e : A × V} (hothers : ∀ e' ∈ front ++ back, e'.1 ≠ e.1) (new : List (A × V))
    (after : Bool) : insertBeside e.1 new after (front ++ e :: back)
      = front ++ ((if after then e :: new else new ++ [e]) ++ back) := by
  have hfront := insertBeside_of_ne new after fun e' he' => hothers e' (List.mem_append_left back he')
  have hback := insertBeside_of_ne new after fun e' he' => hothers e' (List.mem_append_right front he')
  unfold insertBeside at hfront hback ⊢
  rw [List.flatMap_append, List.flatMap_cons, hfront, hback, if_pos rfl]

/-- `listInsertNode` inserts beside the node it is given. -/
theorem Contains.insertNode (hm : Contains h l m) {oldNode : A} {node : Option A} (after : Bool)
    (hold : oldNode ∈ m.map Prod.fst) (hnode : ∀ a ∈ node, a ∉ m.map Prod.fst) (value : V) :
    ∃ h' l', listInsertNode h l oldNode node value after = (h', l')
      ∧ Contains h' l' (insertBeside oldNode (node.map fun a => (a, value)).toList after m)
      ∧ l'.free = l.free ∧ l'.matchWith = l.matchWith := by
  obtain ⟨front, e, back, rfl, rfl, hothers⟩ := hm.cut hold
  rw [insertBeside_eq hothers]
  cases node with
  | none => cases after <;> exact ⟨h, l, rfl, hm, rfl, rfl⟩
  | some a =>
      have ha := hnode a rfl
      have hlist := hm.list
      rw [List.map_append, List.map_cons] at hlist
      cases after with
      | true =>
          refine ⟨_, _, hlist.insertAfter a value, ?_, rfl, rfl⟩
          rw [List.append_cons] at hm ha
          have hins := hm.insert ha value
          have hfst : (front ++ [e]).map Prod.fst = front.map Prod.fst ++ [e.1] := List.map_append
          rw [hfst, List.map_append, hfst, List.map_cons, List.append_assoc front] at hins
          exact hins
      | false =>
          refine ⟨_, _, hlist.insertBefore a value, ?_, rfl, rfl⟩
          have hins := hm.insert ha value
          rw [List.map_append, List.map_cons, List.map_cons] at hins
          exact hins

/-- `listDelNode` removes the node it is given. -/
theorem Contains.delNode (hm : Contains h l m) {node : A} (hnode : node ∈ m.map Prod.fst) :
    Contains (listDelNode h l node).1 (listDelNode h l node).2 (m.filter fun e => e.1 ≠ node) := by
  obtain ⟨front, e, back, rfl, rfl, hothers⟩ := hm.cut hnode
  have hrest : ((front ++ e :: back).filter fun e' => e'.1 ≠ e.1) = front ++ back := by
    have hkeep : (front ++ back).filter (fun e' => decide (e'.1 ≠ e.1)) = front ++ back :=
      List.filter_eq_self.mpr fun e' he' => decide_eq_true (hothers e' he')
    rw [List.filter_append] at hkeep
    rw [List.filter_append, List.filter_cons_of_neg (by simp)]
    exact hkeep
  have hlist := hm.list
  rw [List.map_append, List.map_cons] at hlist
  rw [hrest]
  constructor
  · rw [List.map_append]
    exact hlist.delNode
  · exact fun e' he' => hm.value e' (List.perm_middle.mem_iff.mpr (List.mem_cons_of_mem e he'))

/-- `listRotate` brings the last entry to the front. -/
theorem Contains.rotate (hm : Contains h l m) :
    ∃ h' l', listRotate h l = some (h', l') ∧ Contains h' l' (m.getLast?.toList ++ m.dropLast)
      ∧ l'.free = l.free ∧ l'.matchWith = l.matchWith := by
  rcases List.eq_nil_or_concat m with rfl | ⟨m, e, rfl⟩
  · refine ⟨h, l, if_pos ?_, hm, rfl, rfl⟩
    rw [hm.list.len]
    exact Nat.zero_le 1
  · rw [List.concat_eq_append] at hm ⊢
    have hlist := hm.list
    rw [List.map_append] at hlist
    obtain ⟨h', l', heq, hlist', hvalue, hmethods⟩ := hlist.rotate
    refine ⟨h', l', heq, ?_, hmethods⟩
    rw [List.getLast?_concat, List.dropLast_concat]
    refine ⟨hlist', fun e' he' => ?_⟩
    rw [hvalue]
    refine hm.value e' (List.mem_append.mpr ?_)
    rcases List.mem_cons.mp he' with rfl | hmem
    · exact .inr List.mem_cons_self
    · exact .inl hmem

/-- **One operation.** -/
theorem Contains.step (hm : Contains h l m) {o : ListOp A V} (ho : o.Proper m) :
    ∃ h' l', o.run (h, l) = some (h', l') ∧ Contains h' l' (o.spec m)
      ∧ l'.free = l.free ∧ l'.matchWith = l.matchWith := by
  cases o with
  | addHead node value =>
      cases node with
      | none => exact ⟨h, l, rfl, hm, rfl, rfl⟩
      | some a =>
          have hm' : Contains h l ([] ++ m) := hm
          exact ⟨_, _, hm.list.addNodeHead a value, hm'.insert (ho a rfl) value, rfl, rfl⟩
  | addTail node value =>
      cases node with
      | none =>
          refine ⟨h, l, rfl, ?_, rfl, rfl⟩
          show Contains h l (m ++ [])
          rw [List.append_nil]
          exact hm
      | some a =>
          rw [← List.append_nil m] at hm ho
          have hins := hm.insert (ho a rfl) value
          rw [List.append_nil] at hm
          have hfst : (m ++ [(a, value)]).map Prod.fst = m.map Prod.fst ++ [a] := List.map_append
          rw [hfst, List.getLast?_concat] at hins
          exact ⟨_, _, hm.list.addNodeTail a value, hins, rfl, rfl⟩
  | insert oldNode node value after =>
      obtain ⟨h', l', heq, hm', hmethods⟩ := hm.insertNode after ho.1 ho.2 value
      exact ⟨h', l', congrArg some heq, hm', hmethods⟩
  | del node => exact ⟨_, _, rfl, hm.delNode ho, rfl, rfl⟩
  | rotate => exact hm.rotate

/-- **Whole runs.** -/
theorem Contains.steps (hm : Contains h l m) {ops : List (ListOp A V)} (hops : ProperOps m ops) :
    ∃ h' l', ops.foldlM ListOp.run (h, l) = some (h', l') ∧ Contains h' l' (ops.foldl ListOp.spec m)
      ∧ l'.free = l.free ∧ l'.matchWith = l.matchWith := by
  induction ops generalizing h l m with
  | nil => exact ⟨h, l, rfl, hm, rfl, rfl⟩
  | cons o ops ih =>
      obtain ⟨h₁, l₁, hrun, hm₁, hfree, hmatch⟩ := hm.step hops.1
      obtain ⟨h', l', hruns, hm', hfree', hmatch'⟩ := ih hm₁ hops.2
      refine ⟨h', l', ?_, hm', hfree'.trans hfree, hmatch'.trans hmatch⟩
      rw [List.foldlM_cons, hrun]
      exact hruns

omit [DecidableEq A] in
theorem Contains.map_value (hm : Contains h l m) : (m.map Prod.fst).map h.value = m.map Prod.snd := by
  rw [List.map_map]
  exact List.map_congr_left hm.value

/-- `listSearchKey`, in terms of the entries. -/
theorem Contains.search [DecidableEq V] (hm : Contains h l m) {fuel : Nat} (hfuel : m.length ≤ fuel)
    (key : V) :
    listSearchKey h fuel l key = some ((m.find? fun e => l.hits key e.2).map Prod.fst) := by
  rw [hm.list.search (by rw [List.length_map]; exact hfuel), List.find?_map, ← List.head?_filter,
    ← List.head?_filter]
  congr 3
  refine List.filter_congr fun e he => ?_
  show l.hits key (h.value e.1) = _
  rw [hm.value e he]

/-- **The lists are lists.**  After any operations, `malloc` failing or not: the iterators
give the nodes in their order and from the tail, indices count from either end,
`listSearchKey` finds the first value that matches, and `listRelease` frees each node of
the list, and each value if there is a method for it, exactly once. -/
theorem adlist_implements_list [DecidableEq V] {ops : List (ListOp A V)} (hops : ProperOps [] ops)
    (h : NodeHeap A V) (free : Bool) (matchWith : Option (V → V → Bool)) :
    ∃ h' l', ops.foldlM ListOp.run (h, newList free matchWith) = some (h', l')
      ∧ l'.len = (ops.foldl ListOp.spec []).length
      ∧ (∀ e ∈ ops.foldl ListOp.spec [], h'.value e.1 = e.2)
      ∧ (∀ fuel, (ops.foldl ListOp.spec []).length ≤ fuel →
        listNodes h' fuel (listRewind l') = some ((ops.foldl ListOp.spec []).map Prod.fst)
        ∧ listNodes h' fuel (listRewindTail l') = some ((ops.foldl ListOp.spec []).map Prod.fst).reverse
        ∧ ∀ key, listSearchKey h' fuel l' key
          = some (((ops.foldl ListOp.spec []).find? fun e =>
              (newList free matchWith : AdList A V).hits key e.2).map Prod.fst))
      ∧ (∀ index : Nat, listIndex h' l' index = ((ops.foldl ListOp.spec []).map Prod.fst)[index]?
        ∧ listIndex h' l' (-index - 1) = ((ops.foldl ListOp.spec []).map Prod.fst).reverse[index]?)
      ∧ listRelease h' l' = some ((ops.foldl ListOp.spec []).map Prod.fst,
        if free then (ops.foldl ListOp.spec []).map Prod.snd else []) := by
  have hempty : Contains h (newList free matchWith) [] :=
    ⟨listOf_new h free matchWith, fun _ he => absurd he List.not_mem_nil⟩
  obtain ⟨h', l', hrun, hm, hfree, hmatch⟩ := hempty.steps hops
  have hhits : l'.hits = (newList free matchWith : AdList A V).hits := by
    unfold AdList.hits
    rw [hmatch]
  refine ⟨h', l', hrun, ?_, hm.value, fun fuel hfuel => ?_, hm.list.index, ?_⟩
  · rw [hm.list.len, List.length_map]
  · have hlen : ((ops.foldl ListOp.spec []).map Prod.fst).length ≤ fuel := by
      rw [List.length_map]
      exact hfuel
    obtain ⟨hforward, hbackward⟩ := hm.list.nodes hlen
    rw [← hhits]
    exact ⟨hforward, hbackward, hm.search hfuel⟩
  · rw [hm.list.release, hm.map_value, hfree]
    rfl

/-- Four nodes, one `malloc` that fails, a rotation and a deletion. -/
def someOps : List (ListOp Nat Nat) :=
  [.addTail (some 1) 10, .addHead (some 2) 20, .insert 1 (some 3) 30 false, .addTail none 0,
    .addTail (some 4) 40, .rotate, .del 2]

theorem adlist_implements_list_someOps :
    ∃ h' l', someOps.foldlM ListOp.run (⟨⟨fun _ => none, fun _ => none⟩, fun _ => 0⟩, newList true none)
        = some (h', l')
      ∧ l'.len = 3 ∧ listIndex h' l' (-1) = some 1
      ∧ listRelease h' l' = some ([4, 3, 1], [40, 30, 10]) := by
  obtain ⟨h', l', hrun, hlen, -, -, hindex, hrelease⟩ :=
    adlist_implements_list (by decide : ProperOps [] someOps)
      ⟨⟨fun _ => none, fun _ => none⟩, fun _ => 0⟩ true none
  exact ⟨h', l', hrun, hlen, (hindex 0).2, hrelease⟩

end Runs

end RdmaPaxos.Output
