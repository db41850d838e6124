/-
  RdmaPaxos.EvMgr.UtHashMap
  ─────────────────────────
  **WHAT THE HASH TABLES STAND FOR.**

  A table stands for the list of its elements in the order they were added and, for each
  key, for the list of the elements with that key in the order of their chain.  Additions
  put an element in front of the list of its key and deletions take one out; an expansion
  turns all these lists around.
-/
import RdmaPaxos.EvMgr.UtHashChains
import Mathlib.Data.List.Nodup
import Mathlib.Data.List.Perm.Subperm

namespace RdmaPaxos.UtHash

open RdmaPaxos.DoublyLinked

variable {A : Type*}

/-! ## §1. Tables. -/

/-- The bucket of a hash value, when the number of buckets is a power of two. -/
theorem hashToBkt_eq (v : UInt32) {n : UInt32} {k : Nat} (hn : n.toNat = 2 ^ k) :
    hashToBkt v n = v.toNat % 2 ^ k := by
  have hpos := Nat.two_pow_pos k
  have hsub : (n - 1).toNat = 2 ^ k - 1 := by
    rw [UInt32.toNat_sub_of_le _ _ (UInt32.le_iff_toNat_le.mpr (by rw [hn]; exact hpos)), hn]
    rfl
  unfold hashToBkt
  rw [UInt32.toNat_and, hsub, Nat.and_two_pow_sub_one_eq_mod]

/-- Below 2^31 buckets the doubling does not wrap around. -/
theorem toNat_double {n : UInt32} (h : n.toNat < 2 ^ 31) : (n * 2).toNat = n.toNat * 2 := by
  rw [UInt32.toNat_mul]
  exact Nat.mod_eq_of_lt (show n.toNat * 2 < 2 ^ 32 by omega)

/-- The table has the elements `xs`, the chain of bucket `i` is `c i`. -/
structure TableOf (hh : Handles A) (tbl : Table A) (xs : List A) (c : Nat → List A) : Prop where
  chains : Chains hh.chain tbl.buckets c
  size : tbl.numBuckets.toNat = 2 ^ tbl.log2NumBuckets.toNat
  items : tbl.numItems = UInt32.ofNat xs.length
  tail : tbl.tail = xs.getLast?
  mem : ∀ i a, a ∈ c i ↔ a ∈ xs ∧ hashToBkt (hh.hashv a) tbl.numBuckets = i

section Table
variable {hh : Handles A} {tbl : Table A} {xs : List A} {c : Nat → List A}

theorem TableOf.bkt_lt (h : TableOf hh tbl xs c) (v : UInt32) :
    hashToBkt v tbl.numBuckets < tbl.numBuckets.toNat := by
  rw [hashToBkt_eq v h.size, h.size]
  exact Nat.mod_lt _ (Nat.two_pow_pos _)

theorem TableOf.length_le (h : TableOf hh tbl xs c) (i : Nat) : (c i).length ≤ xs.length :=
  ((h.chains.chain i).nodup.subperm fun a ha => ((h.mem i a).mp ha).1).length_le

theorem TableOf.mem_flatMap (h : TableOf hh tbl xs c) {a : A} :
    a ∈ (List.range tbl.numBuckets.toNat).flatMap c ↔ a ∈ xs := by
  rw [List.mem_flatMap]
  constructor
  · rintro ⟨i, -, hi⟩
    exact ((h.mem i a).mp hi).1
  · intro ha
    exact ⟨_, List.mem_range.mpr (h.bkt_lt _), (h.mem _ a).mpr ⟨ha, rfl⟩⟩

variable [DecidableEq A]

/-- **An expansion** keeps the elements. -/
theorem TableOf.expand (h : TableOf hh tbl xs c) {fuel : Nat} (hfuel : xs.length ≤ fuel)
    (hroom : tbl.numBuckets.toNat < 2 ^ 31) :
    ∃ links tbl', hashExpandBuckets fuel hh tbl = some ({ hh with chain := links }, tbl')
      ∧ tbl'.numBuckets = tbl.numBuckets * 2
      ∧ TableOf { hh with chain := links } tbl' xs
        (spread (fun a => hashToBkt (hh.hashv a) (tbl.numBuckets * 2))
          ((List.range tbl.numBuckets.toNat).flatMap c)) := by
  have hdouble := toNat_double hroom
  have hpos := Nat.two_pow_pos tbl.log2NumBuckets.toNat
  have hne : tbl.numBuckets * 2 ≠ 0 := by
    intro hzero
    rw [hzero, h.size] at hdouble
    have : (0 : UInt32).toNat = 0 := rfl
    omega
  obtain ⟨links, tbl', heq, hchains, hn, hlog, hitems, htail⟩ := hashExpandBuckets_eq h.chains
    (fun i => Nat.le_trans (h.length_le i) hfuel) hne
  refine ⟨links, tbl', heq, hn, hchains, ?_, hitems.trans h.items, htail.trans h.tail, fun i a => ?_⟩
  · have hlog31 : tbl.log2NumBuckets.toNat < 31 := (Nat.pow_lt_pow_iff_right (by decide)).mp (h.size ▸ hroom)
    have hsucc : (tbl.log2NumBuckets + 1).toNat = tbl.log2NumBuckets.toNat + 1 := by
      rw [UInt32.toNat_add]
      exact Nat.mod_eq_of_lt (show tbl.log2NumBuckets.toNat + 1 < 2 ^ 32 by omega)
    rw [hn, hlog, hdouble, hsucc, h.size, Nat.pow_succ]
  · rw [mem_spread, h.mem_flatMap, hn]

/-- **An element more**, in front of the chain of its bucket. -/
theorem TableOf.push (h : TableOf hh tbl xs c) {a : A} (ha : a ∉ xs) :
    TableOf (pushBucket hh tbl (hashToBkt (hh.hashv a) tbl.numBuckets) a).1
      { (pushBucket hh tbl (hashToBkt (hh.hashv a) tbl.numBuckets) a).2 with
        numItems := tbl.numItems + 1, tail := some a } (xs ++ [a])
      (Function.update c (hashToBkt (hh.hashv a) tbl.numBuckets)
        (a :: c (hashToBkt (hh.hashv a) tbl.numBuckets))) := by
  refine ⟨h.chains.push (fun i hi => ha ((h.mem i a).mp hi).1) _ _, h.size, ?_, ?_, fun i y => ?_⟩
  · show tbl.numItems + 1 = _
    rw [h.items, List.length_append, List.length_singleton, UInt32.ofNat_add]
    rfl
  · rw [List.getLast?_concat]
  · show _ ↔ y ∈ xs ++ [a] ∧ hashToBkt (hh.hashv y) tbl.numBuckets = i
    rw [List.mem_append, List.mem_singleton]
    rcases eq_or_ne i (hashToBkt (hh.hashv a) tbl.numBuckets) with rfl | hi
    · rw [Function.update_self, List.mem_cons, h.mem]
      constructor
      · rintro (rfl | ⟨hy, hb⟩)
        · exact ⟨.inr rfl, rfl⟩
        · exact ⟨.inl hy, hb⟩
      · rintro ⟨hy | rfl, hb⟩
        · exact .inr ⟨hy, hb⟩
        · exact .inl rfl
    · rw [Function.update_of_ne hi, h.mem]
      constructor
      · rintro ⟨hy, hb⟩
        exact ⟨.inl hy, hb⟩
      · rintro ⟨hy | rfl, hb⟩
        · exact ⟨hy, hb⟩
        · exact absurd hb.symm hi

/-- **An element less.** -/
theorem TableOf.remove (h : TableOf hh tbl xs c) {a : A} (ha : a ∈ xs) (hnodup : xs.Nodup) :
    TableOf (hashDelInBkt hh tbl (hashToBkt (hh.hashv a) tbl.numBuckets) a).1
      { (hashDelInBkt hh tbl (hashToBkt (hh.hashv a) tbl.numBuckets) a).2 with
        numItems := tbl.numItems - 1, tail := (xs.erase a).getLast? } (xs.erase a)
      (Function.update c (hashToBkt (hh.hashv a) tbl.numBuckets)
        ((c (hashToBkt (hh.hashv a) tbl.numBuckets)).erase a)) := by
  have hac := (h.mem _ a).mpr ⟨ha, rfl⟩
  refine ⟨h.chains.remove hac _, h.size, ?_, rfl, fun i y => ?_⟩
  · show tbl.numItems - 1 = _
    rw [h.items, List.length_erase_of_mem ha, UInt32.ofNat_sub (List.length_pos_of_mem ha)]
    rfl
  · show _ ↔ y ∈ xs.erase a ∧ hashToBkt (hh.hashv y) tbl.numBuckets = i
    rw [hnodup.mem_erase_iff]
    rcases eq_or_ne i (hashToBkt (hh.hashv a) tbl.numBuckets) with rfl | hi
    · rw [Function.update_self, (h.chains.chain _).nodup.mem_erase_iff, h.mem, and_assoc]
    · rw [Function.update_of_ne hi, h.mem]
      constructor
      · rintro ⟨hy, hb⟩
        exact ⟨⟨fun hya => hi (hya ▸ hb.symm), hy⟩, hb⟩
      · rintro ⟨⟨-, hy⟩, hb⟩
        exact ⟨hy, hb⟩

end Table

/-! ## §2. The elements with one key. -/

/-- The elements with key `k`, in the order of the chain they are in. -/
def sameKey (hh : Handles A) (fcn : Key → UInt32) (n : UInt32) (c : Nat → List A) (k : Key) : List A :=
  (c (hashToBkt (fcn k) n)).filter fun a => hh.key a = k

/-- Of a union of chains, one is of interest. -/
theorem flatMap_range_eq {f : Nat → List A} {n i : Nat} (hi : i < n) (h : ∀ j, j ≠ i → f j = []) :
    (List.range n).flatMap f = f i := by
  induction n with
  | zero => exact absurd hi (Nat.not_lt_zero i)
  | succ n ih =>
      rw [List.range_succ, List.flatMap_append, List.flatMap_singleton]
      rcases Nat.lt_or_eq_of_le (Nat.lt_succ_iff.mp hi) with hlt | rfl
      · rw [ih hlt, h n (Nat.ne_of_gt hlt), List.append_nil]
      · have hnil : (List.range i).flatMap f = [] := by
          rw [List.flatMap_eq_nil_iff]
          exact fun j hj => h j (Nat.ne_of_lt (List.mem_range.mp hj))
        rw [hnil, List.nil_append]

section SameKey
variable {hh : Handles A} {fcn : Key → UInt32} {tbl : Table A} {xs : List A} {c : Nat → List A}

theorem TableOf.mem_sameKey (h : TableOf hh tbl xs c) (hhashv : ∀ a ∈ xs, hh.hashv a = fcn (hh.key a))
    {k : Key} {a : A} : a ∈ sameKey hh fcn tbl.numBuckets c k ↔ a ∈ xs ∧ hh.key a = k := by
  unfold sameKey
  rw [List.mem_filter, h.mem, decide_eq_true_eq]
  constructor
  · rintro ⟨⟨ha, -⟩, hk⟩
    exact ⟨ha, hk⟩
  · rintro ⟨ha, rfl⟩
    exact ⟨⟨ha, by rw [hhashv a ha]⟩, rfl⟩

/-- A new element is the first one with its key. -/
theorem sameKey_push (n : UInt32) {a : A} {key : Key} (ha : hh.key a = key) :
    sameKey hh fcn n (Function.update c (hashToBkt (fcn key) n) (a :: c (hashToBkt (fcn key) n)))
      = Function.update (sameKey hh fcn n c) key (a :: sameKey hh fcn n c key) := by
  funext k
  unfold sameKey
  rcases eq_or_ne k key with rfl | hne
  · rw [Function.update_self, Function.update_self, List.filter_cons_of_pos (by simpa using ha)]
  · rw [Function.update_of_ne hne]
    rcases eq_or_ne (hashToBkt (fcn k) n) (hashToBkt (fcn key) n) with heq | hb
    · rw [heq, Function.update_self, List.filter_cons_of_neg]
      simpa [ha] using Ne.symm hne
    · rw [Function.update_of_ne hb]

/-- An element taken out is no longer among those with its key. -/
theorem TableOf.sameKey_remove [DecidableEq A] (h : TableOf hh tbl xs c) (a : A) (k : Key) :
    sameKey hh fcn tbl.numBuckets (Function.update c (hashToBkt (hh.hashv a) tbl.numBuckets)
        ((c (hashToBkt (hh.hashv a) tbl.numBuckets)).erase a)) k
      = (sameKey hh fcn tbl.numBuckets c k).erase a := by
  unfold sameKey
  rcases eq_or_ne (hashToBkt (fcn k) tbl.numBuckets) (hashToBkt (hh.hashv a) tbl.numBuckets)
    with heq | hne
  · have hnodup := (h.chains.chain (hashToBkt (hh.hashv a) tbl.numBuckets)).nodup
    rw [heq, Function.update_self, List.Nodup.erase_eq_filter hnodup,
      List.Nodup.erase_eq_filter (hnodup.filter _), List.filter_filter, List.filter_filter]
    exact List.filter_congr fun y _ => Bool.and_comm _ _
  · rw [Function.update_of_ne hne, List.erase_of_not_mem]
    intro hmem
    exact hne ((h.mem _ a).mp (List.mem_of_mem_filter hmem)).2.symm

/-- **An expansion turns the elements with one key around.** -/
theorem TableOf.sameKey_spread (h : TableOf hh tbl xs c)
    (hhashv : ∀ a ∈ xs, hh.hashv a = fcn (hh.key a)) (k : Key) :
    sameKey hh fcn (tbl.numBuckets * 2)
        (spread (fun a => hashToBkt (hh.hashv a) (tbl.numBuckets * 2))
          ((List.range tbl.numBuckets.toNat).flatMap c)) k
      = (sameKey hh fcn tbl.numBuckets c k).reverse := by
  unfold sameKey spread
  rw [List.filter_reverse, List.filter_filter, List.reverse_inj]
  -- an element with this key goes to the bucket of the key
  have hkey : ((List.range tbl.numBuckets.toNat).flatMap c).filter (fun a => decide (hh.key a = k)
        && decide (hashToBkt (hh.hashv a) (tbl.numBuckets * 2) = hashToBkt (fcn k) (tbl.numBuckets * 2)))
      = ((List.range tbl.numBuckets.toNat).flatMap c).filter fun a => decide (hh.key a = k) := by
    refine List.filter_congr fun a ha => ?_
    have hmem := h.mem_flatMap.mp ha
    by_cases hk : hh.key a = k
    · simp [hk, hhashv a hmem]
    · simp [hk]
  rw [hkey, List.filter_flatMap]
  refine flatMap_range_eq (h.bkt_lt (fcn k)) fun j hj => List.filter_eq_nil_iff.mpr fun a ha => ?_
  obtain ⟨hmem, hb⟩ := (h.mem j a).mp ha
  rw [decide_eq_true_eq]
  rintro rfl
  rw [hhashv a hmem] at hb
  exact hj hb.symm

end SameKey

/-! ## §3. Maps. -/

/-- The number of buckets; a map without elements has no table yet. -/
def State.size (s : State A) : UInt32 := s.tbl.elim hashInitialNumBuckets Table.numBuckets

/-- The elements with key `k`, in the order `HASH_FIND` sees them. -/
def State.byKey (fcn : Key → UInt32) (s : State A) (c : Nat → List A) : Key → List A :=
  sameKey s.hh fcn s.size c

/-- The map has the elements `xs`, in the order they were added, and the chains `c`. -/
structure MapOf (fcn : Key → UInt32) (s : State A) (xs : List A) (c : Nat → List A) : Prop where
  order : Linked s.hh.order none xs none
  head : s.head = xs.head?
  nodup : xs.Nodup
  hashv : ∀ a ∈ xs, s.hh.hashv a = fcn (s.hh.key a)
  noTable : s.tbl = none → xs = [] ∧ c = fun _ => []
  table : ∀ tbl, s.tbl = some tbl → xs ≠ [] ∧ TableOf s.hh tbl xs c

/-- The links, keys and hash values of other elements do not matter. -/
theorem TableOf.congr {hh hh' : Handles A} {tbl : Table A} {xs : List A} {c : Nat → List A}
    (h : TableOf hh tbl xs c) (hchain : hh'.chain = hh.chain)
    (hhashv : ∀ a ∈ xs, hh'.hashv a = hh.hashv a) : TableOf hh' tbl xs c := by
  refine ⟨hchain ▸ h.chains, h.size, h.items, h.tail, fun i a => ?_⟩
  rw [h.mem]
  exact and_congr_right fun ha => by rw [hhashv a ha]

/-- An empty table. -/
theorem tableOf_make (hh : Handles A) (a : A) :
    TableOf hh { hashMakeTable a with tail := none } [] fun _ => [] :=
  ⟨Chains.empty _, rfl, rfl, rfl, fun _ _ => by simp⟩

/-- The list, turned around by an expansion. -/
def turned (expanded : Bool) (ys : List A) : List A := if expanded then ys.reverse else ys

theorem turned_perm (expanded : Bool) (ys : List A) : (turned expanded ys).Perm ys := by
  cases expanded with
  | false => exact .refl _
  | true => exact ys.reverse_perm

section Map
variable [DecidableEq A] {fcn : Key → UInt32} {fuel : Nat} {s : State A} {xs : List A}
  {c : Nat → List A} {a : A}

/-- `HASH_ADD_TO_BKT`: the element is in its chain, and the table may expand. -/
theorem TableOf.addToBkt {hh : Handles A} {tbl : Table A} (h : TableOf hh tbl xs c) (ha : a ∉ xs)
    (hfuel : xs.length < fuel) (hroom : tbl.numBuckets.toNat < 2 ^ 31)
    (hhashv : ∀ y ∈ xs ++ [a], hh.hashv y = fcn (hh.key y)) :
    ∃ links tbl' c' expanded, hashAddToBkt fuel hh
          { tbl with numItems := tbl.numItems + 1, tail := some a }
          (hashToBkt (fcn (hh.key a)) tbl.numBuckets) a = some ({ hh with chain := links }, tbl')
      ∧ TableOf { hh with chain := links } tbl' (xs ++ [a]) c'
      ∧ tbl'.numBuckets = (if expanded = true then tbl.numBuckets * 2 else tbl.numBuckets)
      ∧ ∀ k, sameKey hh fcn tbl'.numBuckets c' k
        = turned expanded (Function.update (sameKey hh fcn tbl.numBuckets c) (hh.key a)
            (a :: sameKey hh fcn tbl.numBuckets c (hh.key a)) k) := by
  have hpush := h.push ha
  have hlen : (xs ++ [a]).length ≤ fuel := by
    rw [List.length_append, List.length_singleton]
    exact hfuel
  rw [← sameKey_push tbl.numBuckets rfl, ← hhashv a (List.mem_append_right _ List.mem_cons_self)]
  unfold hashAddToBkt
  dsimp only
  split
  next =>
    obtain ⟨links, tbl', heq, hn, hexp⟩ := hpush.expand hlen hroom
    refine ⟨links, tbl', _, true, heq, hexp, hn, fun k => ?_⟩
    rw [hn]
    exact hpush.sameKey_spread hhashv k
  next => exact ⟨_, _, _, false, rfl, hpush, rfl, fun k => rfl⟩

/-- The handles once the fields of a new element are written, but those for its chain. -/
def Handles.added (hh : Handles A) (fcn : Key → UInt32) (tail : Option A) (a : A) (key : Key) :
    Handles A where
  order := hh.order.link a tail none
  chain := hh.chain
  key := Function.update hh.key a key
  hashv := Function.update hh.hashv a (fcn key)

/-- `HASH_ADD` up to `HASH_ADD_TO_BKT`: a first element makes the table. -/
theorem MapOf.hashAdd_eq (h : MapOf fcn s xs c) (fuel : Nat) (a : A) (key : Key) :
    ∃ tbl, TableOf s.hh tbl xs c ∧ s.size = tbl.numBuckets
      ∧ hashAdd fcn fuel s a key = (hashAddToBkt fuel (s.hh.added fcn xs.getLast? a key)
          { tbl with numItems := tbl.numItems + 1, tail := some a }
          (hashToBkt (fcn key) tbl.numBuckets) a).map
            fun p => ⟨p.1, (xs ++ [a]).head?, some p.2⟩ := by
  rcases Option.eq_none_or_eq_some s.tbl with hnone | ⟨tbl, htbl⟩
  · obtain ⟨rfl, rfl⟩ := h.noTable hnone
    refine ⟨_, tableOf_make s.hh a, by rw [State.size, hnone]; rfl, ?_⟩
    unfold hashAdd
    rw [h.head]
    show Option.bind _ _ = _
    rw [Option.map_eq_bind]
    rfl
  · obtain ⟨hne, htable⟩ := h.table tbl htbl
    refine ⟨tbl, htable, by rw [State.size, htbl]; rfl, ?_⟩
    obtain ⟨x, xs, rfl⟩ := List.exists_cons_of_ne_nil hne
    unfold hashAdd
    rw [h.head, htbl, ← htable.tail]
    show Option.bind _ _ = _
    rw [Option.map_eq_bind]
    rfl

/-- **`HASH_ADD`.** -/
theorem MapOf.add (h : MapOf fcn s xs c) (ha : a ∉ xs) (hfuel : xs.length < fuel)
    (hroom : s.size.toNat < 2 ^ 31) (key : Key) :
    ∃ s' c' expanded, hashAdd fcn fuel s a key = some s' ∧ MapOf fcn s' (xs ++ [a]) c'
      ∧ s'.hh.key = Function.update s.hh.key a key
      ∧ s'.size = (if expanded = true then s.size * 2 else s.size)
      ∧ ∀ k, s'.byKey fcn c' k
        = turned expanded (Function.update (s.byKey fcn c) key (a :: s.byKey fcn c key) k) := by
  obtain ⟨tbl, htable, hsize, heq⟩ := h.hashAdd_eq fuel a key
  -- the elements there were keep their fields
  have hold : ∀ y ∈ xs, (s.hh.added fcn xs.getLast? a key).key y = s.hh.key y
      ∧ (s.hh.added fcn xs.getLast? a key).hashv y = s.hh.hashv y := by
    intro y hy
    have hne : y ≠ a := fun hya => ha (hya ▸ hy)
    exact ⟨Function.update_of_ne hne .., Function.update_of_ne hne ..⟩
  have hkey : (s.hh.added fcn xs.getLast? a key).key a = key := Function.update_self ..
  have hhashv : ∀ y ∈ xs ++ [a], (s.hh.added fcn xs.getLast? a key).hashv y
      = fcn ((s.hh.added fcn xs.getLast? a key).key y) := by
    intro y hy
    rcases List.mem_append.mp hy with hy | hy
    · rw [(hold y hy).1, (hold y hy).2]
      exact h.hashv y hy
    · obtain rfl := List.mem_singleton.mp hy
      rw [hkey]
      exact Function.update_self ..
  have hsame : sameKey (s.hh.added fcn xs.getLast? a key) fcn tbl.numBuckets c = s.byKey fcn c := by
    funext k
    unfold State.byKey sameKey
    rw [hsize]
    refine List.filter_congr fun y hy => ?_
    rw [(hold y ((htable.mem _ y).mp hy).1).1]
  have htable' : TableOf (s.hh.added fcn xs.getLast? a key) tbl xs c :=
    htable.congr rfl fun y hy => (hold y hy).2
  obtain ⟨links, tbl', c', expanded, hadd, hto, hn, hby⟩ := htable'.addToBkt ha hfuel
    (hsize ▸ hroom) hhashv
  rw [hkey] at hadd hby
  rw [hadd] at heq
  refine ⟨_, c', expanded, heq, ⟨?_, rfl, ?_, hhashv, nofun, ?_⟩, rfl, ?_, ?_⟩
  · exact h.order.link_last h.nodup ha
  · rw [List.nodup_append]
    refine ⟨h.nodup, List.pairwise_singleton _ a, fun y hy z hz hyz => ?_⟩
    exact ha (List.mem_singleton.mp hz ▸ hyz ▸ hy)
  · rintro _ ⟨⟩
    exact ⟨by simp, hto⟩
  · rw [hsize]
    exact hn
  · intro k
    rw [← hsame]
    exact hby k

/-- The ends of a list one element is taken out of. -/
theorem ends_erase {front back : List A} (hnodup : (front ++ a :: back).Nodup) :
    (if (front ++ a :: back).getLast? = some a then front.getLast? else (front ++ a :: back).getLast?)
        = (front ++ back).getLast?
      ∧ (if front.getLast? = none then back.head? else (front ++ a :: back).head?)
        = (front ++ back).head? := by
  constructor
  · split
    next hlast => rw [(getLast?_middle hnodup).mp hlast, List.append_nil]
    next hlast =>
      have hne : back ≠ [] := fun hnil => hlast ((getLast?_middle hnodup).mpr hnil)
      obtain ⟨y, back, rfl⟩ := List.exists_cons_of_ne_nil hne
      simp [List.getLast?_append]
  · cases front with
    | nil => rfl
    | cons x front => rw [if_neg (by simp)]; rfl

/-- **`HASH_DELETE`.** -/
theorem MapOf.delete (h : MapOf fcn s xs c) (ha : a ∈ xs) :
    ∃ c', MapOf fcn (hashDelete s a) (xs.erase a) c'
      ∧ (hashDelete s a).hh.key = s.hh.key
      ∧ (∀ k, (hashDelete s a).byKey fcn c' k = (s.byKey fcn c k).erase a)
      ∧ ((hashDelete s a).size = s.size
        ∨ (hashDelete s a).size = hashInitialNumBuckets ∧ xs.erase a = []) := by
  rcases Option.eq_none_or_eq_some s.tbl with hnone | ⟨tbl, htbl⟩
  · rw [(h.noTable hnone).1] at ha
    exact absurd ha List.not_mem_nil
  have htable := (h.table tbl htbl).2
  have hsize : s.size = tbl.numBuckets := by rw [State.size, htbl]; rfl
  obtain ⟨front, back, hxs, herase, -, hprev, hnext⟩ := h.order.cut h.nodup ha
  unfold hashDelete
  rw [htbl]
  dsimp only
  split
  next hlast =>
    -- the last element: the table goes
    rw [hprev, hnext, List.getLast?_eq_none_iff, List.head?_eq_none_iff] at hlast
    obtain ⟨rfl, rfl⟩ := hlast
    rw [herase]
    refine ⟨fun _ => [], ⟨trivial, rfl, List.nodup_nil, fun _ hy => absurd hy List.not_mem_nil,
      fun _ => ⟨rfl, rfl⟩, nofun⟩, rfl, fun k => ?_, .inr ⟨rfl, rfl⟩⟩
    refine (List.eq_nil_iff_forall_not_mem.mpr fun y hy => ?_).symm
    have hnodup : (s.byKey fcn c k).Nodup := (htable.chains.chain _).nodup.filter _
    obtain ⟨hne, hmem⟩ := hnodup.mem_erase_iff.mp hy
    unfold State.byKey at hmem
    rw [hsize, htable.mem_sameKey h.hashv, hxs] at hmem
    exact hne (List.mem_singleton.mp hmem.1)
  next hnot =>
    obtain ⟨htail, hhead⟩ := ends_erase (hxs ▸ h.nodup)
    have hremove := htable.remove ha h.nodup
    have horder : Linked (s.hh.order.unlink a) none (xs.erase a) none := by
      rw [herase]
      exact (hxs ▸ h.order).unlink (hxs ▸ h.nodup)
    rw [← hxs, ← herase, ← htable.tail, ← hprev] at htail
    rw [← hxs, ← herase, ← h.head, ← hprev, ← hnext] at hhead
    rw [htail, hhead]
    refine ⟨Function.update c (hashToBkt (s.hh.hashv a) tbl.numBuckets)
        ((c (hashToBkt (s.hh.hashv a) tbl.numBuckets)).erase a),
      ⟨horder, rfl, h.nodup.erase a, fun y hy => h.hashv y (List.mem_of_mem_erase hy), nofun, ?_⟩,
      rfl, fun k => ?_, .inl hsize.symm⟩
    · rintro _ ⟨⟩
      refine ⟨fun hnil => hnot ?_, hremove.congr rfl fun _ _ => rfl⟩
      rw [herase, List.append_eq_nil_iff] at hnil
      rw [hprev, hnext, hnil.1, hnil.2]
      exact ⟨rfl, rfl⟩
    · unfold State.byKey
      rw [hsize]
      exact htable.sameKey_remove a k

end Map

/-! ## §4. Reading. -/

section Reading
variable {fcn : Key → UInt32} {fuel : Nat} {s : State A} {xs : List A} {c : Nat → List A}

/-- The loop of `HASH_FIND_IN_BKT` stops at the first element with the key. -/
theorem hashFindInBkt_eq {hh : Handles A} {key : Key} {ys : List A} {p : Option A}
    (h : Linked hh.chain p ys none) (hfuel : ys.length ≤ fuel) :
    hashFindInBkt hh key fuel ys.head? = some (ys.filter fun a => hh.key a = key).head? := by
  induction ys generalizing p fuel with
  | nil => cases fuel <;> rfl
  | cons y ys ih =>
      obtain ⟨fuel, rfl⟩ := Nat.exists_eq_add_one_of_ne_zero
        (Nat.ne_of_gt (Nat.lt_of_lt_of_le (Nat.succ_pos _) hfuel))
      obtain ⟨-, hnext, hrest⟩ := h
      rw [List.head?_cons, hashFindInBkt]
      by_cases hy : hh.key y = key
      · rw [if_pos ⟨congrArg _ hy, hy⟩, List.filter_cons_of_pos (by simpa using hy), List.head?_cons]
      · rw [if_neg fun hb => hy hb.2, List.filter_cons_of_neg (by simpa using hy), hnext,
          Option.or_none]
        exact ih hrest (Nat.le_of_succ_le_succ hfuel)

/-- **`HASH_FIND`**: the first of the elements with the key. -/
theorem MapOf.find (h : MapOf fcn s xs c) (hfuel : xs.length ≤ fuel) (k : Key) :
    hashFind fcn fuel s k = some (s.byKey fcn c k).head? := by
  unfold hashFind State.byKey State.size
  rcases Option.eq_none_or_eq_some s.tbl with hnone | ⟨tbl, htbl⟩
  · obtain ⟨rfl, rfl⟩ := h.noTable hnone
    rw [h.head]
    rfl
  · obtain ⟨hne, htable⟩ := h.table tbl htbl
    obtain ⟨x, xs, rfl⟩ := List.exists_cons_of_ne_nil hne
    have hchain := htable.chains.chain (hashToBkt (fcn k) tbl.numBuckets)
    rw [h.head, htbl]
    show hashFindInBkt s.hh k fuel (tbl.buckets _).hhHead = _
    rw [hchain.head, hashFindInBkt_eq hchain.linked (Nat.le_trans (htable.length_le _) hfuel)]
    rfl

theorem MapOf.mem_byKey (h : MapOf fcn s xs c) {k : Key} {y : A} :
    y ∈ s.byKey fcn c k ↔ y ∈ xs ∧ s.hh.key y = k := by
  unfold State.byKey State.size
  rcases Option.eq_none_or_eq_some s.tbl with hnone | ⟨tbl, htbl⟩
  · obtain ⟨rfl, rfl⟩ := h.noTable hnone
    simp [sameKey]
  · rw [htbl]
    exact (h.table tbl htbl).2.mem_sameKey h.hashv

/-- `HASH_COUNT`. -/
theorem MapOf.count (h : MapOf fcn s xs c) : hashCount s = UInt32.ofNat xs.length := by
  unfold hashCount
  rcases Option.eq_none_or_eq_some s.tbl with hnone | ⟨tbl, htbl⟩
  · rw [h.head, (h.noTable hnone).1]
    rfl
  · obtain ⟨hne, htable⟩ := h.table tbl htbl
    obtain ⟨x, xs, rfl⟩ := List.exists_cons_of_ne_nil hne
    rw [h.head, htbl]
    exact htable.items

/-- `HASH_ITER` visits the elements in the order they were added. -/
theorem MapOf.iter (h : MapOf fcn s xs c) (hfuel : xs.length ≤ fuel) : hashIter fuel s = some xs := by
  unfold hashIter
  rw [h.head]
  refine (loop_eq _ _ (I := fun rest visited => visited ++ rest = xs)
    (fun x rest visited hI => ⟨?_, by rw [List.append_assoc]; exact hI⟩) hfuel rfl).1.trans ?_
  · have horder := h.order
    rw [← hI] at horder
    exact horder.neighbours.2
  · have hfold : ∀ ys acc, List.foldl (fun visited (el : A) => visited ++ [el]) acc ys = acc ++ ys := by
      intro ys
      induction ys with
      | nil => simp
      | cons y ys ih => simp [ih]
    rw [hfold, List.nil_append]

end Reading

end RdmaPaxos.UtHash
