/-
  RdmaPaxos.EvMgr.UtHashChains
  ────────────────────────────
  **THE CHAINS OF A HASH TABLE**, through additions, deletions and expansions.

  `Chains links buckets c` says that the chain of bucket `i` consists of the elements
  `c i`.  An addition puts an element in front of one chain, a deletion takes one out,
  and an expansion takes the elements one by one, bucket by bucket, and puts each in
  front of its new chain: so the elements that stay together come out in the reverse
  order (`hashExpandBuckets_eq`).
-/
import RdmaPaxos.EvMgr.UtHash

namespace RdmaPaxos.UtHash

open RdmaPaxos.DoublyLinked

variable {A : Type*}

/-! ## §1. Chains. -/

/-- The chain of a bucket consists of the elements `ys`. -/
structure ChainOf (links : Links A) (bkt : Bucket A) (ys : List A) : Prop where
  linked : Linked links none ys none
  head : bkt.hhHead = ys.head?
  count : bkt.count = UInt32.ofNat ys.length
  nodup : ys.Nodup

/-- The chain of bucket `i` is `c i`. -/
structure Chains (links : Links A) (buckets : Nat → Bucket A) (c : Nat → List A) : Prop where
  chain : ∀ i, ChainOf links (buckets i) (c i)
  disjoint : ∀ i j a, a ∈ c i → a ∈ c j → i = j

theorem Chains.empty (links : Links A) : Chains links (fun _ => .zero) fun _ => [] :=
  ⟨fun _ => ⟨trivial, rfl, rfl, List.nodup_nil⟩, fun _ _ _ h => absurd h List.not_mem_nil⟩

/-- One bucket changes; what the others need is that their elements keep their links. -/
theorem Chains.update {links links' : Links A} {b : Nat → Bucket A} {c : Nat → List A} {i : Nat}
    {bkt : Bucket A} {ys : List A} (h : Chains links b c) (hi : ChainOf links' bkt ys)
    (hothers : ∀ j, j ≠ i → Linked links' none (c j) none)
    (hys : ∀ a ∈ ys, ∀ j, j ≠ i → a ∉ c j) :
    Chains links' (Function.update b i bkt) (Function.update c i ys) := by
  constructor
  · intro j
    rcases eq_or_ne j i with rfl | hj
    · rw [Function.update_self, Function.update_self]
      exact hi
    · rw [Function.update_of_ne hj, Function.update_of_ne hj]
      exact { h.chain j with linked := hothers j hj }
  · intro j k a hj hk
    rcases eq_or_ne j i with rfl | hji
    · rw [Function.update_self] at hj
      by_contra hkj
      rw [Function.update_of_ne (Ne.symm hkj)] at hk
      exact hys a hj k (Ne.symm hkj) hk
    · rw [Function.update_of_ne hji] at hj
      rcases eq_or_ne k i with rfl | hki
      · rw [Function.update_self] at hk
        exact absurd hj (hys a hk j hji)
      · rw [Function.update_of_ne hki] at hk
        exact h.disjoint j k a hj hk

section Chains
variable [DecidableEq A] {links : Links A} {b : Nat → Bucket A} {c : Nat → List A} {a : A}

/-- **An element in front of a chain.** -/
theorem Chains.push (h : Chains links b c) (ha : ∀ i, a ∉ c i) (i : Nat) (m : UInt32) :
    Chains (links.link a none (b i).hhHead)
      (Function.update b i ⟨some a, (b i).count + 1, m⟩) (Function.update c i (a :: c i)) := by
  have hi := h.chain i
  refine h.update ⟨?_, rfl, ?_, List.nodup_cons.mpr ⟨ha i, hi.nodup⟩⟩
    (fun j hj => ?_) fun y hy j hj hmem => ?_
  · rw [hi.head]
    exact hi.linked.link_first hi.nodup (ha i)
  · rw [List.length_cons, UInt32.ofNat_add, ← hi.count]
    rfl
  · refine (h.chain j).linked.link_of_notMem (ha j) nofun fun y hy hmem => ?_
    rw [hi.head] at hy
    exact hj (h.disjoint j i y hmem (List.mem_of_head? hy))
  · rcases List.mem_cons.mp hy with rfl | hy
    · exact ha j hmem
    · exact hj (h.disjoint j i y hmem hy)

/-- The chain without one of its elements. -/
theorem ChainOf.remove {bkt : Bucket A} {ys : List A} (h : ChainOf links bkt ys) (ha : a ∈ ys)
    (m : UInt32) : ChainOf (links.unlink a)
      ⟨if bkt.hhHead = some a then links.next a else bkt.hhHead, bkt.count - 1, m⟩ (ys.erase a) := by
  obtain ⟨front, back, hys, herase, hnot, -, hnext⟩ := h.linked.cut h.nodup ha
  refine ⟨?_, ?_, ?_, h.nodup.erase a⟩
  · have hlinked := h.linked
    have hnodup := h.nodup
    rw [hys] at hlinked hnodup
    rw [herase]
    exact hlinked.unlink hnodup
  · show (if bkt.hhHead = some a then _ else _) = _
    rw [h.head, herase, hys, hnext]
    cases front with
    | nil => exact if_pos rfl
    | cons x front =>
        refine if_neg fun heq => ?_
        rw [List.cons_append, List.head?_cons, Option.some.injEq] at heq
        exact hnot (heq ▸ List.mem_cons_self)
  · show bkt.count - 1 = _
    rw [List.length_erase_of_mem ha, h.count, UInt32.ofNat_sub (List.length_pos_of_mem ha)]
    rfl

/-- **An element taken out of its chain.** -/
theorem Chains.remove (h : Chains links b c) {i : Nat} (ha : a ∈ c i) (m : UInt32) :
    Chains (links.unlink a)
      (Function.update b i
        ⟨if (b i).hhHead = some a then links.next a else (b i).hhHead, (b i).count - 1, m⟩)
      (Function.update c i ((c i).erase a)) := by
  obtain ⟨front, back, hci, -, -, hprev, hnext⟩ := (h.chain i).linked.cut (h.chain i).nodup ha
  refine h.update ((h.chain i).remove ha m) (fun j hj => ?_) fun y hy j hj hmem => ?_
  · -- the neighbours are in the same chain
    refine (h.chain j).linked.unlink_of_notMem (fun y hy hmem => ?_) fun y hy hmem => ?_
    · refine hj (h.disjoint j i y hmem ?_)
      rw [hci]
      exact List.mem_append_left _ (List.mem_of_getLast? (hprev ▸ hy))
    · refine hj (h.disjoint j i y hmem ?_)
      rw [hci]
      exact List.mem_append_right _ (List.mem_cons_of_mem a (List.mem_of_head? (hnext ▸ hy)))
  · exact hj (h.disjoint j i y hmem (List.mem_of_mem_erase hy))

end Chains

/-! ## §2. Expansion. -/

/-- The elements of `xs` that go to bucket `j`, each put in front of those before it. -/
def spread (dst : A → Nat) (xs : List A) (j : Nat) : List A :=
  (xs.filter fun a => dst a = j).reverse

theorem mem_spread {dst : A → Nat} {xs : List A} {j : Nat} {a : A} :
    a ∈ spread dst xs j ↔ a ∈ xs ∧ dst a = j := by
  simp [spread]

theorem spread_concat (dst : A → Nat) (xs : List A) (a : A) :
    spread dst (xs ++ [a]) = Function.update (spread dst xs) (dst a) (a :: spread dst xs (dst a)) := by
  funext j
  rcases eq_or_ne j (dst a) with rfl | hne
  · simp [spread, List.filter_append]
  · simp [spread, List.filter_append, Function.update_of_ne hne, Ne.symm hne]

section Expansion
variable [DecidableEq A] {links : Links A} {hashv : A → UInt32} {n : UInt32} {e : Expansion A}
  {xs moved : List A} {a : A} (ideal : UInt32)

/-- The elements `moved` are in their new chains, the others still have their old links. -/
structure Moved (links : Links A) (dst : A → Nat) (moved : List A) (e : Expansion A) : Prop where
  chains : Chains e.chain e.newBuckets (spread dst moved)
  rest : ∀ a, a ∉ moved → e.chain.next a = links.next a

/-- One element. -/
theorem Moved.step (h : Moved links (fun a => hashToBkt (hashv a) (n * 2)) moved e) (ha : a ∉ moved) :
    Moved links (fun a => hashToBkt (hashv a) (n * 2)) (moved ++ [a])
      (expandElement hashv n ideal e a) := by
  constructor
  · rw [spread_concat]
    exact h.chains.push (fun i hi => ha (mem_spread.mp hi).1) _ _
  · intro y hy
    rw [List.mem_append, List.mem_singleton, not_or] at hy
    show (Links.link e.chain a none _).next y = _
    rw [Links.link_next_of_ne _ hy.2]
    exact h.rest y hy.1

/-- One bucket: the loop sees the elements of the old chain, in its order. -/
theorem Moved.bucket {fuel : Nat} (h : Moved links (fun a => hashToBkt (hashv a) (n * 2)) moved e)
    (hlinked : Linked links none xs none) (hnodup : xs.Nodup) (hnew : ∀ a ∈ xs, a ∉ moved)
    (hfuel : xs.length ≤ fuel) : ∃ e', expandBucket fuel hashv n ideal e xs.head? = some e'
      ∧ Moved links (fun a => hashToBkt (hashv a) (n * 2)) (moved ++ xs) e' := by
  obtain ⟨heq, done, hdone, hmoved⟩ := loop_eq (fun e thh => e.chain.next thh)
    (expandElement hashv n ideal)
    (I := fun rest e => ∃ done, done ++ rest = xs
      ∧ Moved links (fun a => hashToBkt (hashv a) (n * 2)) (moved ++ done) e)
    (fun x rest e ⟨done, hdone, hmoved⟩ => by
      have hx : x ∉ moved ++ done := by
        rw [List.mem_append, not_or]
        refine ⟨hnew x ?_, fun hmem => ?_⟩
        · rw [← hdone]
          exact List.mem_append_right _ List.mem_cons_self
        · rw [← hdone] at hnodup
          exact (List.nodup_append.mp hnodup).2.2 x hmem x List.mem_cons_self rfl
      refine ⟨?_, done ++ [x], by rw [List.append_assoc]; exact hdone, ?_⟩
      · rw [hmoved.rest x hx]
        rw [← hdone] at hlinked
        exact hlinked.neighbours.2
      · rw [← List.append_assoc]
        exact hmoved.step ideal hx) hfuel ⟨[], rfl, by rw [List.append_nil]; exact h⟩
  rw [List.append_nil] at hdone
  rw [hdone] at hmoved
  exact ⟨_, heq, hmoved⟩

/-- The buckets from 0 up. -/
theorem moved_buckets {b : Nat → Bucket A} {c : Nat → List A} (h : Chains links b c) {fuel : Nat}
    (hfuel : ∀ i, (c i).length ≤ fuel) (hashv : A → UInt32) (n : UInt32) (k : Nat) :
    ∃ e, (List.range k).foldlM
        (fun e i => expandBucket fuel hashv n ideal e (b i).hhHead) ⟨links, fun _ => .zero, 0⟩ = some e
      ∧ Moved links (fun a => hashToBkt (hashv a) (n * 2)) ((List.range k).flatMap c) e := by
  induction k with
  | zero => exact ⟨_, rfl, Chains.empty links, fun _ _ => rfl⟩
  | succ k ih =>
      obtain ⟨e, hfold, hmoved⟩ := ih
      have hnew : ∀ a ∈ c k, a ∉ (List.range k).flatMap c := by
        intro a ha hmem
        obtain ⟨i, hi, hai⟩ := List.mem_flatMap.mp hmem
        have := List.mem_range.mp hi
        have := h.disjoint i k a hai ha
        omega
      obtain ⟨e', hbucket, hmoved'⟩ := hmoved.bucket ideal (h.chain k).linked (h.chain k).nodup
        hnew (hfuel k)
      refine ⟨e', ?_, ?_⟩
      · rw [List.range_succ, List.foldlM_append, hfold]
        simp only [List.foldlM_cons, List.foldlM_nil, (h.chain k).head, hbucket, Option.bind_eq_bind,
          Option.bind_some]
        rfl
      · rw [List.range_succ, List.flatMap_append, List.flatMap_singleton]
        exact hmoved'

/-- **Expansion**: what the new chains are. -/
theorem hashExpandBuckets_eq {hh : Handles A} {tbl : Table A} {c : Nat → List A}
    (h : Chains hh.chain tbl.buckets c) {fuel : Nat} (hfuel : ∀ i, (c i).length ≤ fuel)
    (hroom : tbl.numBuckets * 2 ≠ 0) :
    ∃ links tbl', hashExpandBuckets fuel hh tbl = some ({ hh with chain := links }, tbl')
      ∧ Chains links tbl'.buckets (spread (fun a => hashToBkt (hh.hashv a) (tbl.numBuckets * 2))
          ((List.range tbl.numBuckets.toNat).flatMap c))
      ∧ tbl'.numBuckets = tbl.numBuckets * 2 ∧ tbl'.log2NumBuckets = tbl.log2NumBuckets + 1
      ∧ tbl'.numItems = tbl.numItems ∧ tbl'.tail = tbl.tail := by
  obtain ⟨e, hfold, hmoved⟩ := moved_buckets (idealChainMaxlen tbl) h hfuel hh.hashv
    tbl.numBuckets tbl.numBuckets.toNat
  refine ⟨e.chain, tbl.expanded e, ?_, hmoved.chains, rfl, rfl, rfl, rfl⟩
  unfold hashExpandBuckets
  rw [if_neg hroom, hfold]
  rfl

end Expansion

end RdmaPaxos.UtHash
