/-
  RdmaPaxos.Output.HeapStore
  ──────────────────────────
  **THE OUTPUT MANAGER IN THE HEAP.**

  `Output.Store` has the hashes of a descriptor as a list.  In `output.c` they are nodes
  of a doubly linked list, and the lists of all descriptors share one heap: a node freed
  by `del_output` may be the next one `malloc` returns for another descriptor.  Here the
  functions of `output.c` work on these lists, and every history of calls returns what it
  returns in `Output.Store` (`heapStore_refines`).

  `malloc` is an argument, as a sequence of addresses for each call that needs some.
-/
import RdmaPaxos.Output.AdList
import RdmaPaxos.Output.Store

namespace RdmaPaxos.Output

open RdmaPaxos.DoublyLinked

variable {A : Type}

/-! ## §1. The functions of `output.c` on the heap. -/

/-- `output_handler_t`. -/
structure HeapHandler (A : Type) where
  count : Nat
  outputList : AdList A UInt64
  hash : UInt64
  hashBuffer : List UInt8
  calledCnt : Nat
  room : hashBuffer.length < hashBufferSize

theorem room_nil : ([] : List UInt8).length < hashBufferSize := by decide

/-- `new_output_handler`: the list gets `free` as its method. -/
def HeapHandler.new : HeapHandler A where
  count := 0
  outputList := newList true none
  hash := 0
  hashBuffer := []
  calledCnt := 0
  room := room_nil

/-- The nodes of all lists, and the table `fd_handler`. -/
structure HeapMgr (A : Type) where
  heap : NodeHeap A UInt64
  fdHandler : Nat → Option (HeapHandler A)

/-- `get_output_handler_by_fd`. -/
def HeapMgr.get (m : HeapMgr A) (fd : Nat) : HeapMgr A × Option (HeapHandler A) :=
  if fd < maxFdSize then
    match m.fdHandler fd with
    | some h => (m, some h)
    | none => ({ m with fdHandler := Function.update m.fdHandler fd (some .new) }, some .new)
  else (m, none)

/-- The buffer is full: one more node, which `malloc` returned, at the tail of the list. -/
def HeapHandler.addHash [DecidableEq A] (h : HeapHandler A) (heap : NodeHeap A UInt64) (block : List UInt8)
    (node : Option A) : Option (NodeHeap A UInt64 × HeapHandler A) :=
  (listAddNodeTail heap h.outputList node (crc64 h.hash block)).map fun (heap, list) =>
    (heap, { count := h.count + 1
             outputList := list
             hash := crc64 h.hash block
             hashBuffer := []
             calledCnt := h.calledCnt
             room := room_nil })

/-- The loop of `store_output` over what is left of `buff`, `retval` hashes generated so
far. -/
def HeapHandler.push [DecidableEq A] (malloc : Nat → Option A) (heap : NodeHeap A UInt64)
    (h : HeapHandler A) (retval : Nat) (buff : List UInt8) :
    Option (NodeHeap A UInt64 × HeapHandler A × Nat) :=
  if hb : buff = [] then some (heap, h, retval)
  else
    let actual := min (hashBufferSize - h.hashBuffer.length) buff.length
    have : buff.length - actual < buff.length := by
      have := h.room
      have := List.length_pos_iff.2 hb
      omega
    if hfull : h.hashBuffer.length + actual = hashBufferSize then
      (h.addHash heap (h.hashBuffer ++ buff.take actual) (malloc retval)).bind fun (heap, h) =>
        h.push malloc heap (retval + 1) (buff.drop actual)
    else
      { h with
        hashBuffer := h.hashBuffer ++ buff.take actual
        room := by
          have := h.room
          rw [List.length_append, List.length_take]
          omega }.push malloc heap retval (buff.drop actual)
termination_by buff.length
decreasing_by all_goals rw [List.length_drop]; exact this

/-- `store_output`. -/
def HeapMgr.store [DecidableEq A] (m : HeapMgr A) (fd : Nat) (buff : List UInt8) (malloc : Nat → Option A) :
    Option (HeapMgr A × Int) :=
  if buff = [] then some (m, 0)
  else
    match m.get fd with
    | (m, none) => some (m, -1)
    | (m, some h) => (h.push malloc m.heap 0 buff).map fun (heap, h, retval) =>
        (⟨heap, Function.update m.fdHandler fd (some h)⟩, (retval : Int))

/-- `determine_output`. -/
def HeapMgr.determine (m : HeapMgr A) (fd : Nat) : HeapMgr A × Int :=
  match m.get fd with
  | (m, none) => (m, -1)
  | (m, some h) =>
      let calledCnt := h.calledCnt + 1
      let roundGoback : Int := h.count - checkGoback
      ({ m with fdHandler := Function.update m.fdHandler fd (some { h with calledCnt := calledCnt }) },
        if calledCnt % checkPeriod = 0 then
          if 0 ≤ roundGoback then roundGoback else -1
        else -1)

/-- The loop of `get_val_by_index`, `cnt` nodes into the list. -/
def heapGetValFrom [DecidableEq A] (heap : NodeHeap A UInt64) (index : Int) :
    Nat → ListIter A → Nat → Option UInt64
  | 0, iter, _ => if iter.next = none then some 0 else none
  | fuel + 1, iter, cnt =>
      match listNext heap iter with
      | (none, _) => some 0
      | (some ln, iter) =>
          if index = cnt then some (heap.value ln) else heapGetValFrom heap index fuel iter (cnt + 1)

/-- `get_output_hash`. -/
def HeapMgr.getHash [DecidableEq A] (m : HeapMgr A) (fuel : Nat) (fd : Nat) (hashIndex : Int) :
    Option (HeapMgr A × UInt64) :=
  match m.get fd with
  | (m, none) => some (m, 0)
  | (m, some h) =>
      if hashIndex < h.count then
        (heapGetValFrom m.heap hashIndex fuel (listRewind h.outputList) 0).map fun val => (m, val)
      else some (m, 0)

/-- `del_output`: `listRelease` walks the list and frees its nodes. -/
def HeapMgr.del (m : HeapMgr A) (fd : Nat) : Option (HeapMgr A × Int) :=
  if fd < maxFdSize then
    match m.fdHandler fd with
    | none => some (m, 0)
    | some h => (listRelease m.heap h.outputList).map fun _ =>
        ({ m with fdHandler := Function.update m.fdHandler fd none }, 0)
  else some (m, -1)

/-! ## §2. One list among others. -/

/-- The nodes outside `s` are as they were. -/
def KeptOutside (s : A → Prop) (heap heap' : NodeHeap A UInt64) : Prop :=
  ∀ a, ¬ s a → heap'.links.prev a = heap.links.prev a ∧ heap'.links.next a = heap.links.next a
    ∧ heap'.value a = heap.value a

theorem KeptOutside.trans {s : A → Prop} {heap heap' heap'' : NodeHeap A UInt64}
    (h : KeptOutside s heap heap') (h' : KeptOutside s heap' heap'') : KeptOutside s heap heap'' := by
  intro a ha
  obtain ⟨hp, hn, hv⟩ := h a ha
  obtain ⟨hp', hn', hv'⟩ := h' a ha
  exact ⟨hp'.trans hp, hn'.trans hn, hv'.trans hv⟩

/-- The handler in the heap, with the nodes `xs`, and the handler with a list. -/
structure HandlerOf (heap : NodeHeap A UInt64) (ch : HeapHandler A) (h : Handler) (xs : List A) : Prop where
  count : ch.count = h.count
  list : ListOf heap ch.outputList xs
  values : xs.map heap.value = h.outputList
  hash : ch.hash = h.hash
  buffer : ch.hashBuffer = h.hashBuffer
  calledCnt : ch.calledCnt = h.calledCnt

theorem handlerOf_new (heap : NodeHeap A UInt64) : HandlerOf heap .new newOutputHandler [] :=
  ⟨rfl, listOf_new heap true none, rfl, rfl, rfl, rfl⟩

section Handler
variable {heap heap' : NodeHeap A UInt64} {ch : HeapHandler A} {h : Handler} {xs : List A}

/-- A list whose nodes are not touched. -/
theorem HandlerOf.kept {s : A → Prop} (hh : HandlerOf heap ch h xs) (hkept : KeptOutside s heap heap')
    (hxs : ∀ a ∈ xs, ¬ s a) : HandlerOf heap' ch h xs := by
  refine { hh with list := { hh.list with linked := ?_ }, values := ?_ }
  · exact hh.list.linked.congr fun a ha => ⟨(hkept a (hxs a ha)).1, (hkept a (hxs a ha)).2.1⟩
  · rw [← hh.values]
    exact List.map_congr_left fun a ha => (hkept a (hxs a ha)).2.2

/-- Bytes that do not fill the buffer. -/
theorem HandlerOf.fill (hh : HandlerOf heap ch h xs) (bytes : List UInt8)
    (hroom hroom' : bytes.length < hashBufferSize) :
    HandlerOf heap { ch with hashBuffer := bytes, room := hroom } { h with hashBuffer := bytes, room := hroom' }
      xs :=
  ⟨hh.count, hh.list, hh.values, hh.hash, rfl, hh.calledCnt⟩

variable [DecidableEq A]

/-- **One more hash**, in a node that is not in use. -/
theorem HandlerOf.addHash (hh : HandlerOf heap ch h xs) (block : List UInt8) {node : A} (hnode : node ∉ xs) :
    ∃ heap' ch', ch.addHash heap block (some node) = some (heap', ch')
      ∧ HandlerOf heap' ch' (h.addHash block) (xs ++ [node])
      ∧ KeptOutside (fun a => a ∈ xs ∨ a = node) heap heap' := by
  unfold HeapHandler.addHash
  rw [hh.list.addNodeTail node]
  have hlist : ListOf heap ch.outputList (xs ++ []) := by rw [List.append_nil]; exact hh.list
  have hinsert := hlist.insert (by rw [List.append_nil]; exact hnode) (crc64 ch.hash block)
  rw [List.getLast?_concat] at hinsert
  refine ⟨_, _, rfl, ⟨?_, hinsert, ?_, ?_, rfl, ?_⟩, ?_⟩
  · show ch.count + 1 = h.count + 1
    rw [hh.count]
  · show (xs ++ [node]).map (Function.update heap.value node (crc64 ch.hash block))
      = h.outputList ++ [crc64 h.hash block]
    rw [List.map_append, List.map_singleton, Function.update_self, hh.hash, ← hh.values]
    congr 1
    refine List.map_congr_left fun a ha => Function.update_of_ne (fun heq => ?_) ..
    exact hnode (heq ▸ ha)
  · show crc64 ch.hash block = crc64 h.hash block
    rw [hh.hash]
  · exact hh.calledCnt
  · intro a ha
    rw [not_or] at ha
    obtain ⟨hp, hn⟩ := Links.link_of_ne heap.links (p := xs.getLast?) (n := none) ha.2
      (fun heq => ha.1 (List.mem_of_getLast? heq)) nofun
    exact ⟨hp, hn, Function.update_of_ne ha.2 ..⟩

/-- What `malloc` returns: an address each time, none twice and none in use. -/
structure Supply (malloc : Nat → Option A) (used : A → Prop) : Prop where
  answers : ∀ k, ∃ a, malloc k = some a
  inj : ∀ k k' a, malloc k = some a → malloc k' = some a → k = k'
  fresh : ∀ k a, malloc k = some a → ¬ used a

/-- The nodes a call may write: those of its list and the new ones. -/
def Own (xs : List A) (malloc : Nat → Option A) (a : A) : Prop := a ∈ xs ∨ ∃ k, malloc k = some a

/-- **The loop of `store_output`.** -/
theorem HandlerOf.push {heap : NodeHeap A UInt64} {ch : HeapHandler A} {h : Handler} {xs : List A}
    (hh : HandlerOf heap ch h xs) {malloc : Nat → Option A} (hanswers : ∀ k, ∃ a, malloc k = some a)
    (hinj : ∀ k k' a, malloc k = some a → malloc k' = some a → k = k')
    {retval : Nat} (hfresh : ∀ k a, retval ≤ k → malloc k = some a → a ∉ xs) (buff : List UInt8) :
    ∃ heap' ch' xs', ch.push malloc heap retval buff = some (heap', ch', retval + (h.push buff).2)
      ∧ HandlerOf heap' ch' (h.push buff).1 xs' ∧ (∀ a ∈ xs', Own xs malloc a)
      ∧ KeptOutside (Own xs malloc) heap heap' := by
  rw [HeapHandler.push, Handler.push]
  by_cases hb : buff = []
  · rw [dif_pos hb, dif_pos hb]
    exact ⟨heap, ch, xs, rfl, hh, fun a ha => .inl ha, fun a _ => ⟨rfl, rfl, rfl⟩⟩
  · have hroom := h.room
    have hpos := List.length_pos_iff.mpr hb
    rw [dif_neg hb, dif_neg hb]
    simp only [hh.buffer]
    obtain ⟨actual, hactual⟩ : ∃ k, k = min (hashBufferSize - h.hashBuffer.length) buff.length :=
      ⟨_, rfl⟩
    simp only [← hactual]
    by_cases hfull : h.hashBuffer.length + actual = hashBufferSize
    · obtain ⟨node, hnode⟩ := hanswers retval
      obtain ⟨heap₁, ch₁, hadd, hh₁, hkept₁⟩ := hh.addHash (h.hashBuffer ++ buff.take actual)
        (hfresh retval node (Nat.le_refl _) hnode)
      have hfresh₁ : ∀ k a, retval + 1 ≤ k → malloc k = some a → a ∉ xs ++ [node] := by
        intro k a hk ha hmem
        rcases List.mem_append.mp hmem with hmem | hmem
        · exact hfresh k a (Nat.le_of_succ_le hk) ha hmem
        · rw [List.mem_singleton.mp hmem] at ha
          exact absurd (hinj k retval node ha hnode) (by omega)
      obtain ⟨heap₂, ch₂, xs', hpush, hh₂, hxs', hkept₂⟩ :=
        hh₁.push hanswers hinj hfresh₁ (buff.drop actual)
      -- the new node is one of those `malloc` returned
      have hown : ∀ a, Own (xs ++ [node]) malloc a → Own xs malloc a := by
        rintro a (hmem | hnew)
        · rcases List.mem_append.mp hmem with hmem | hmem
          · exact .inl hmem
          · exact .inr ⟨retval, by rw [List.mem_singleton.mp hmem]; exact hnode⟩
        · exact .inr hnew
      rw [dif_pos hfull, dif_pos hfull, hnode, hadd]
      refine ⟨heap₂, ch₂, xs', ?_, hh₂, fun a ha => hown a (hxs' a ha), ?_⟩
      · show ch₁.push malloc heap₁ (retval + 1) (buff.drop actual) = _
        rw [hpush, Nat.add_assoc, Nat.add_comm 1]
      · refine KeptOutside.trans (fun a ha => hkept₁ a fun hmem => ha ?_)
          fun a ha => hkept₂ a fun hmem => ha (hown a hmem)
        exact hmem.elim .inl fun heq => .inr ⟨retval, heq ▸ hnode⟩
    · rw [dif_neg hfull, dif_neg hfull]
      exact (hh.fill _ _ _).push hanswers hinj hfresh (buff.drop actual)
termination_by buff.length
decreasing_by all_goals (rw [List.length_drop]; omega)

/-- **`get_val_by_index`** on the nodes is `get_val_by_index` on their values. -/
theorem heapGetValFrom_eq {p : Option A} {fuel : Nat} (hl : Linked heap.links p xs none)
    (hfuel : xs.length ≤ fuel) (index : Int) (cnt : Nat) :
    heapGetValFrom heap index fuel ⟨xs.head?, true⟩ cnt
      = some (getValFrom index (xs.map heap.value) cnt) := by
  induction xs generalizing p fuel cnt with
  | nil => cases fuel <;> rfl
  | cons x xs ih =>
      obtain ⟨fuel, rfl⟩ := Nat.exists_eq_add_one_of_ne_zero
        (Nat.ne_of_gt (Nat.lt_of_lt_of_le (Nat.succ_pos _) hfuel))
      obtain ⟨-, hnext, hrest⟩ := hl
      rw [List.head?_cons, heapGetValFrom, List.map_cons, getValFrom]
      show (if index = cnt then _ else heapGetValFrom heap index fuel ⟨heap.links.next x, true⟩ _) = _
      rw [hnext, Option.or_none, ih hrest (Nat.le_of_succ_le_succ hfuel)]
      split <;> rfl

end Handler

/-! ## §3. All lists. -/

/-- The entry of a descriptor in both tables. -/
inductive EntryOf (heap : NodeHeap A UInt64) : Option (HeapHandler A) → Option Handler → List A → Prop where
  | empty : EntryOf heap none none []
  | handler {ch : HeapHandler A} {h : Handler} {xs : List A} (hh : HandlerOf heap ch h xs) :
      EntryOf heap (some ch) (some h) xs

/-- `nodes fd` are the nodes of descriptor `fd`; no two lists share one. -/
structure Represents (m : HeapMgr A) (mgr : OutputMgr) (nodes : Nat → List A) : Prop where
  entry : ∀ fd, EntryOf m.heap (m.fdHandler fd) (mgr fd) (nodes fd)
  disjoint : ∀ {fd fd' a}, a ∈ nodes fd → a ∈ nodes fd' → fd = fd'

/-- A node that some list would give to `free`. -/
def HeapMgr.InUse (m : HeapMgr A) (a : A) : Prop :=
  ∃ fd h freed, m.fdHandler fd = some h ∧ listRelease m.heap h.outputList = some freed ∧ a ∈ freed.1

/-- The manager at the start, over any heap. -/
def HeapMgr.new (heap : NodeHeap A UInt64) : HeapMgr A := ⟨heap, fun _ => none⟩

theorem represents_new (heap : NodeHeap A UInt64) : Represents (.new heap) newOutputMgr fun _ => [] :=
  ⟨fun _ => .empty, nofun⟩

theorem EntryOf.kept {heap heap' : NodeHeap A UInt64} {ch : Option (HeapHandler A)} {h : Option Handler}
    {xs : List A} (he : EntryOf heap ch h xs) {s : A → Prop} (hkept : KeptOutside s heap heap')
    (hxs : ∀ a ∈ xs, ¬ s a) : EntryOf heap' ch h xs := by
  cases he with
  | empty => exact .empty
  | handler hh => exact .handler (hh.kept hkept hxs)

section Manager
variable {m : HeapMgr A} {mgr : OutputMgr} {nodes : Nat → List A} {fd : Nat}

theorem Represents.inUse (hm : Represents m mgr nodes) {a : A} (ha : a ∈ nodes fd) : m.InUse a := by
  have he := hm.entry fd
  generalize hch : m.fdHandler fd = ch, mgr fd = h, nodes fd = xs at he ha
  cases he with
  | empty => exact absurd ha List.not_mem_nil
  | handler hh => exact ⟨fd, _, _, hch, hh.list.release, ha⟩

/-- **The entry of one descriptor is replaced**, and with it only nodes that are in no
other list. -/
theorem Represents.set (hm : Represents m mgr nodes) {heap' : NodeHeap A UInt64}
    {ch : Option (HeapHandler A)} {h : Option Handler} {xs : List A} {s : A → Prop}
    (he : EntryOf heap' ch h xs) (hxs : ∀ a ∈ xs, s a) (hkept : KeptOutside s m.heap heap')
    (hs : ∀ fd' a, s a → a ∈ nodes fd' → fd' = fd) :
    Represents ⟨heap', Function.update m.fdHandler fd ch⟩ (Function.update mgr fd h)
      (Function.update nodes fd xs) := by
  constructor
  · intro fd'
    by_cases hfd : fd' = fd
    · subst hfd
      simp only [Function.update_self]
      exact he
    · simp only [Function.update_of_ne hfd]
      exact (hm.entry fd').kept hkept fun a ha hsa => hfd (hs fd' a hsa ha)
  · -- a node of the new list is in no other one
    have hother : ∀ fd' a, fd' ≠ fd → a ∈ xs → a ∉ nodes fd' :=
      fun fd' a hne hax ha => hne (hs fd' a (hxs a hax) ha)
    intro fd₁ fd₂ a ha₁ ha₂
    by_cases h₁ : fd₁ = fd <;> by_cases h₂ : fd₂ = fd
    · rw [h₁, h₂]
    · rw [h₁, Function.update_self] at ha₁
      rw [Function.update_of_ne h₂] at ha₂
      exact absurd ha₂ (hother fd₂ a h₂ ha₁)
    · rw [h₂, Function.update_self] at ha₂
      rw [Function.update_of_ne h₁] at ha₁
      exact absurd ha₁ (hother fd₁ a h₁ ha₂)
    · rw [Function.update_of_ne h₁] at ha₁
      rw [Function.update_of_ne h₂] at ha₂
      exact hm.disjoint ha₁ ha₂

/-- The heap stays, and the list keeps its nodes. -/
theorem Represents.setSame (hm : Represents m mgr nodes) {ch : HeapHandler A} {h : Handler}
    (hh : HandlerOf m.heap ch h (nodes fd)) :
    Represents { m with fdHandler := Function.update m.fdHandler fd (some ch) }
      (Function.update mgr fd (some h)) nodes := by
  have hset : Represents { m with fdHandler := Function.update m.fdHandler fd (some ch) }
      (Function.update mgr fd (some h)) (Function.update nodes fd (nodes fd)) :=
    hm.set (.handler hh) (fun a ha => ha) (fun a _ => ⟨rfl, rfl, rfl⟩) fun fd' a ha ha' =>
      hm.disjoint ha' ha
  rw [Function.update_eq_self] at hset
  exact hset

/-- **`get_output_handler_by_fd`.** -/
theorem Represents.get (hm : Represents m mgr nodes) (hfd : fd < maxFdSize) :
    ∃ m' mgr' ch h, m.get fd = (m', some ch) ∧ getOutputHandlerByFd mgr fd = (mgr', some h)
      ∧ Represents m' mgr' nodes ∧ m'.heap = m.heap ∧ HandlerOf m.heap ch h (nodes fd) := by
  have he := hm.entry fd
  unfold HeapMgr.get getOutputHandlerByFd
  rw [if_pos hfd, if_pos hfd]
  generalize m.fdHandler fd = ch, mgr fd = h, hnodes : nodes fd = xs at he ⊢
  cases he with
  | empty =>
      have hnew : HandlerOf m.heap .new newOutputHandler (nodes fd) := hnodes ▸ handlerOf_new m.heap
      exact ⟨_, _, _, _, rfl, rfl, hm.setSame hnew, rfl, handlerOf_new m.heap⟩
  | handler hh => exact ⟨m, mgr, _, _, rfl, rfl, hm, rfl, hh⟩

theorem HeapMgr.get_out (m : HeapMgr A) (hfd : ¬ fd < maxFdSize) : m.get fd = (m, none) := if_neg hfd

variable [DecidableEq A]

/-- **`store_output`.** -/
theorem Represents.store (hm : Represents m mgr nodes) (buff : List UInt8) {malloc : Nat → Option A}
    (hmalloc : Supply malloc m.InUse) :
    ∃ m' nodes', m.store fd buff malloc = some (m', (storeOutput mgr fd buff).2)
      ∧ Represents m' (storeOutput mgr fd buff).1 nodes' := by
  unfold HeapMgr.store storeOutput
  by_cases hb : buff = []
  · rw [if_pos hb, if_pos hb]
    exact ⟨m, nodes, rfl, hm⟩
  · rw [if_neg hb, if_neg hb]
    by_cases hfd : fd < maxFdSize
    · obtain ⟨m', mgr', ch, h, hget, hget', hm', hheap, hh⟩ := hm.get hfd
      have hfresh : ∀ k a, malloc k = some a → ∀ fd', a ∉ nodes fd' :=
        fun k a ha fd' hmem => hmalloc.fresh k a ha (hm.inUse hmem)
      obtain ⟨heap', ch', xs', hpush, hh', hxs', hkept⟩ :=
        hh.push hmalloc.answers hmalloc.inj (fun k a (_ : 0 ≤ k) ha => hfresh k a ha fd) buff
      rw [hget, hget']
      simp only [hheap, hpush, Option.map_some, Nat.zero_add]
      refine ⟨_, _, rfl, hm'.set (.handler hh') hxs' (hheap ▸ hkept) fun fd' a hown ha => ?_⟩
      rcases hown with hmem | ⟨k, hk⟩
      · exact hm.disjoint ha hmem
      · exact absurd ha (hfresh k a hk fd')
    · rw [m.get_out hfd, getOutputHandlerByFd_out hfd]
      exact ⟨m, nodes, rfl, hm⟩

omit [DecidableEq A] in
/-- **`determine_output`.** -/
theorem Represents.determine (hm : Represents m mgr nodes) :
    (m.determine fd).2 = (determineOutput mgr fd).2
      ∧ Represents (m.determine fd).1 (determineOutput mgr fd).1 nodes := by
  unfold HeapMgr.determine determineOutput
  by_cases hfd : fd < maxFdSize
  · obtain ⟨m', mgr', ch, h, hget, hget', hm', hheap, hh⟩ := hm.get hfd
    have hcalled : HandlerOf m'.heap { ch with calledCnt := ch.calledCnt + 1 }
        { h with calledCnt := h.calledCnt + 1 } (nodes fd) := by
      rw [hheap]
      exact { hh with calledCnt := congrArg (· + 1) hh.calledCnt }
    rw [hget, hget']
    refine ⟨?_, hm'.setSame hcalled⟩
    simp only [hh.calledCnt, hh.count]
  · rw [m.get_out hfd, getOutputHandlerByFd_out hfd]
    exact ⟨rfl, hm⟩

/-- **`get_output_hash`**, when the walk may be as long as the list. -/
theorem Represents.getHash (hm : Represents m mgr nodes) (hashIndex : Int) :
    ∃ m', (∀ fuel ≥ (nodes fd).length,
        m.getHash fuel fd hashIndex = some (m', (getOutputHash mgr fd hashIndex).2))
      ∧ Represents m' (getOutputHash mgr fd hashIndex).1 nodes := by
  unfold HeapMgr.getHash getOutputHash
  by_cases hfd : fd < maxFdSize
  · obtain ⟨m', mgr', ch, h, hget, hget', hm', hheap, hh⟩ := hm.get hfd
    rw [hget, hget']
    refine ⟨m', fun fuel hfuel => ?_, hm'⟩
    have hwalk : heapGetValFrom m.heap hashIndex fuel (listRewind ch.outputList) 0
        = some (getValByIndex h.outputList hashIndex) := by
      unfold listRewind getValByIndex
      rw [hh.list.head, heapGetValFrom_eq hh.list.linked hfuel, hh.values]
    simp only [hheap, hwalk, hh.count, Option.map_some]
    split <;> rfl
  · rw [m.get_out hfd, getOutputHandlerByFd_out hfd]
    exact ⟨m, fun _ _ => rfl, hm⟩

omit [DecidableEq A] in
/-- **`del_output`**: the nodes of the list, and no others, go back to `malloc`. -/
theorem Represents.del (hm : Represents m mgr nodes) :
    ∃ m' nodes', m.del fd = some (m', (delOutput mgr fd).2) ∧ Represents m' (delOutput mgr fd).1 nodes' := by
  unfold HeapMgr.del delOutput
  by_cases hfd : fd < maxFdSize
  · have hset : Represents { m with fdHandler := Function.update m.fdHandler fd none }
        (Function.update mgr fd none) (Function.update nodes fd []) :=
      hm.set .empty (s := fun a => a ∈ nodes fd) nofun (fun a _ => ⟨rfl, rfl, rfl⟩)
        fun fd' a ha ha' => hm.disjoint ha' ha
    have he := hm.entry fd
    rw [if_pos hfd, if_pos hfd]
    generalize hch : m.fdHandler fd = ch, mgr fd = h, nodes fd = xs at he
    cases he with
    | empty =>
        rw [← hch, Function.update_eq_self] at hset
        exact ⟨m, _, rfl, hset⟩
    | handler hh =>
        simp only [hh.list.release, Option.map_some]
        exact ⟨_, _, rfl, hset⟩
  · rw [if_neg hfd, if_neg hfd]
    exact ⟨m, nodes, rfl, hm⟩

end Manager

/-! ## §4. Whole histories. -/

/-- A call of the output manager; `store_output` with what `malloc` returns to it. -/
inductive HeapOp (A : Type) where
  | store (fd : Nat) (buff : List UInt8) (malloc : Nat → Option A)
  | determine (fd : Nat)
  | getHash (fd : Nat) (hashIndex : Int)
  | del (fd : Nat)

/-- The same call in `Output.Store`. -/
def HeapOp.op : HeapOp A → Op
  | .store fd buff _ => .store fd buff
  | .determine fd => .determine fd
  | .getHash fd hashIndex => .getHash fd hashIndex
  | .del fd => .del fd

section Histories
variable [DecidableEq A]

/-- One call, and what it returns; no walk along a list goes further than `fuel` nodes. -/
def HeapOp.call (fuel : Nat) (m : HeapMgr A) : HeapOp A → Option (HeapMgr A × (Int ⊕ UInt64))
  | .store fd buff malloc => (m.store fd buff malloc).map fun (m, n) => (m, .inl n)
  | .determine fd => some ((m.determine fd).1, .inl (m.determine fd).2)
  | .getHash fd hashIndex => (m.getHash fuel fd hashIndex).map fun (m, hash) => (m, .inr hash)
  | .del fd => (m.del fd).map fun (m, n) => (m, .inl n)

/-- A history of calls, and what they return. -/
def HeapMgr.calls (fuel : Nat) : HeapMgr A → List (HeapOp A) → Option (HeapMgr A × List (Int ⊕ UInt64))
  | m, [] => some (m, [])
  | m, c :: cs => (c.call fuel m).bind fun (m, ret) =>
      (m.calls fuel cs).map fun (m, rets) => (m, ret :: rets)

/-- The return values of a history in `Output.Store`. -/
def rets : OutputMgr → List Op → List (Int ⊕ UInt64)
  | _, [] => []
  | mgr, op :: ops => op.ret mgr :: rets (op.run mgr) ops

/-- `malloc` never returns a node that is in use at that moment; one that was freed it may. -/
def ProperCalls : HeapMgr A → List (HeapOp A) → Prop
  | _, [] => True
  | m, c :: cs =>
      (∀ fd buff malloc, c = .store fd buff malloc → Supply malloc m.InUse)
        ∧ ∀ fuel m' ret, c.call fuel m = some (m', ret) → ProperCalls m' cs

/-- **One call.** -/
theorem Represents.call {m : HeapMgr A} {mgr : OutputMgr} {nodes : Nat → List A} (hm : Represents m mgr nodes)
    (c : HeapOp A) (hproper : ∀ fd buff malloc, c = .store fd buff malloc → Supply malloc m.InUse) :
    ∃ N, ∃ m' nodes', (∀ fuel ≥ N, c.call fuel m = some (m', c.op.ret mgr))
      ∧ Represents m' (c.op.run mgr) nodes' := by
  cases c with
  | store fd buff malloc =>
      obtain ⟨m', nodes', hcall, hm'⟩ := hm.store buff (hproper fd buff malloc rfl)
      refine ⟨0, m', nodes', fun fuel _ => ?_, hm'⟩
      show (m.store fd buff malloc).map _ = _
      rw [hcall]
      rfl
  | determine fd =>
      obtain ⟨hret, hm'⟩ := hm.determine
      refine ⟨0, _, nodes, fun fuel _ => ?_, hm'⟩
      show some (_, Sum.inl (m.determine fd).2) = _
      rw [hret]
      rfl
  | getHash fd hashIndex =>
      obtain ⟨m', hcall, hm'⟩ := hm.getHash hashIndex
      refine ⟨(nodes fd).length, m', nodes, fun fuel hfuel => ?_, hm'⟩
      show (m.getHash fuel fd hashIndex).map _ = _
      rw [hcall fuel hfuel]
      rfl
  | del fd =>
      obtain ⟨m', nodes', hcall, hm'⟩ := hm.del
      refine ⟨0, m', nodes', fun fuel _ => ?_, hm'⟩
      show (m.del fd).map _ = _
      rw [hcall]
      rfl

/-- **The output manager is the same with lists in the heap.**  Over any history of calls
in which `malloc` returns only nodes that are in no list at that moment, freed ones
included, no call goes through a null pointer or walks for ever, every return value is
that of `Output.Store`, and at the end each descriptor has its hashes in its own list,
which shares no node with another one. -/
theorem heapStore_refines (heap : NodeHeap A UInt64) (cs : List (HeapOp A))
    (hproper : ProperCalls (.new heap) cs) :
    ∃ N, ∃ m nodes, (∀ fuel ≥ N, (HeapMgr.new heap).calls fuel cs
          = some (m, rets newOutputMgr (cs.map HeapOp.op)))
      ∧ Represents m (runOps (cs.map HeapOp.op)) nodes := by
  suffices hrun : ∀ (cs : List (HeapOp A)) (m : HeapMgr A) (mgr : OutputMgr) (nodes : Nat → List A),
      Represents m mgr nodes → ProperCalls m cs →
      ∃ N, ∃ m' nodes', (∀ fuel ≥ N, m.calls fuel cs = some (m', rets mgr (cs.map HeapOp.op)))
        ∧ Represents m' ((cs.map HeapOp.op).foldl Op.run mgr) nodes' from
    hrun cs _ _ _ (represents_new heap) hproper
  intro cs
  induction cs with
  | nil => exact fun m mgr nodes hm _ => ⟨0, m, nodes, fun _ _ => rfl, hm⟩
  | cons c cs ih =>
      intro m mgr nodes hm hproper
      obtain ⟨N, m₁, nodes₁, hcall, hm₁⟩ := hm.call c hproper.1
      obtain ⟨N', m₂, nodes₂, hcalls, hm₂⟩ := ih m₁ _ nodes₁ hm₁ (hproper.2 N m₁ _ (hcall N (Nat.le_refl N)))
      -- fuel for this call and for the rest
      refine ⟨max N N', m₂, nodes₂, fun fuel hfuel => ?_, hm₂⟩
      rw [HeapMgr.calls, hcall fuel (Nat.le_trans (Nat.le_max_left ..) hfuel)]
      show (m₁.calls fuel cs).map _ = _
      rw [hcalls fuel (Nat.le_trans (Nat.le_max_right ..) hfuel)]
      rfl

theorem HeapMgr.store_entry {m m' : HeapMgr A} {fd fd' : Nat} {buff : List UInt8} {malloc : Nat → Option A}
    {n : Int} (h : m.store fd buff malloc = some (m', n)) (hne : fd' ≠ fd) :
    m'.fdHandler fd' = m.fdHandler fd' := by
  unfold HeapMgr.store at h
  split at h
  · cases h
    rfl
  · have hget : (m.get fd).1.fdHandler fd' = m.fdHandler fd' := by
      unfold HeapMgr.get
      split
      · split
        · rfl
        · exact Function.update_of_ne hne ..
      · rfl
    split at h
    next m₁ heq =>
      cases h
      rw [heq] at hget
      exact hget
    next m₁ hd heq =>
      obtain ⟨⟨heap, hd', n'⟩, -, hm'⟩ := Option.map_eq_some_iff.mp h
      cases hm'
      rw [heq] at hget
      exact (Function.update_of_ne hne ..).trans hget

omit [DecidableEq A] in
theorem HeapMgr.del_entry {m m' : HeapMgr A} {fd : Nat} {n : Int} (h : m.del fd = some (m', n))
    (hfd : fd < maxFdSize) : m'.fdHandler = Function.update m.fdHandler fd none := by
  unfold HeapMgr.del at h
  rw [if_pos hfd] at h
  split at h
  next hnone =>
    cases h
    rw [← hnone, Function.update_eq_self]
  next =>
    obtain ⟨freed, -, hm'⟩ := Option.map_eq_some_iff.mp h
    cases hm'
    rfl

end Histories

/-- Three hashes, the first of them in a node that is used again for another descriptor. -/
theorem heapStore_refines_reuse :
    let malloc : Nat → Option Nat := some
    let cs := [HeapOp.store 3 (List.replicate 1024 7) malloc, .del 3,
      .store 4 (List.replicate 2050 9) malloc, .getHash 4 1]
    let heap : NodeHeap Nat UInt64 := ⟨⟨fun _ => none, fun _ => none⟩, fun _ => 0⟩
    ProperCalls (.new heap) cs
      ∧ ∃ N, ∃ m nodes, (∀ fuel ≥ N, (HeapMgr.new heap).calls fuel cs
            = some (m, rets newOutputMgr (cs.map HeapOp.op)))
        ∧ Represents m (runOps (cs.map HeapOp.op)) nodes := by
  have hsupply : ∀ m : HeapMgr Nat, (∀ fd, m.fdHandler fd = none) → Supply some m.InUse := by
    intro m hm
    refine ⟨fun k => ⟨k, rfl⟩, fun k k' a hk hk' => ?_, ?_⟩
    · exact (Option.some.inj hk).trans (Option.some.inj hk').symm
    · rintro k a - ⟨fd, h, freed, hfd, -⟩
      rw [hm fd] at hfd
      cases hfd
  intro malloc cs heap
  have hproper : ProperCalls (.new heap) cs := by
    refine ⟨?_, fun fuel m₁ ret h₁ => ⟨nofun, fun fuel' m₂ ret' h₂ => ⟨?_, fun fuel m₃ ret h₃ => ⟨nofun, ?_⟩⟩⟩⟩
    · rintro fd buff malloc ⟨⟩
      exact hsupply _ fun _ => rfl
    · rintro fd buff malloc ⟨⟩
      -- the only list is gone
      refine hsupply _ fun fd => ?_
      obtain ⟨⟨m', n⟩, hstore, hm'⟩ := Option.map_eq_some_iff.mp h₁
      cases hm'
      obtain ⟨⟨m'', n'⟩, hdel, hm''⟩ := Option.map_eq_some_iff.mp h₂
      cases hm''
      rw [HeapMgr.del_entry hdel (by decide)]
      by_cases hfd : fd = 3
      · rw [hfd, Function.update_self]
      · rw [Function.update_of_ne hfd, HeapMgr.store_entry hstore hfd]
        rfl
    · exact fun _ _ _ _ => trivial
  exact ⟨hproper, heapStore_refines heap cs hproper⟩

end RdmaPaxos.Output
