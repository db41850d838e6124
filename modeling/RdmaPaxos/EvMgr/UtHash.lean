/-
  RdmaPaxos.EvMgr.UtHash
  ──────────────────────
  **THE HASH TABLES OF THE EVENT MANAGER** (`ev_mgr/uthash.h`).

  The maps of `ev_mgr.c` are intrusive tables: every element carries a handle with two
  pairs of links, one for the order in which the elements were added and one for the
  chain of its bucket.  The handles are modelled field by field, the buckets as an array
  of chain heads with their counters; a bucket that gets too long makes the whole table
  expand, in the middle of the addition that caused it.  Loops along a chain have a
  bound on their rounds and give `none` when it does not suffice.

  All counters are the header's `unsigned`, 32 bits wide.  At 2^31 buckets the number of
  the new buckets is 0, and the elements would go behind an array of no elements: such an
  expansion has no result.

  `hashFsck` is the integrity check the header compiles in under `HASH_DEBUG`.
-/
import RdmaPaxos.Lib.DoublyLinked
import Mathlib.Algebra.Ring.Nat

namespace RdmaPaxos.UtHash

open RdmaPaxos.DoublyLinked

variable {A : Type*}

/-! ## §1. Handles, buckets, tables. -/

/-- A key: `keylen` bytes at `key`. -/
abbrev Key := List UInt8

/-- The `UT_hash_handle`s of all elements: `prev`, `next` in `order`, `hh_prev`, `hh_next`
in `chain`. -/
structure Handles (A : Type*) where
  order : Links A
  chain : Links A
  key : A → Key
  hashv : A → UInt32

/-- `UT_hash_bucket`. -/
structure Bucket (A : Type*) where
  hhHead : Option A
  count : UInt32
  expandMult : UInt32

/-- A bucket after `memset`. -/
def Bucket.zero : Bucket A := ⟨none, 0, 0⟩

/-- `UT_hash_table`. -/
structure Table (A : Type*) where
  buckets : Nat → Bucket A
  numBuckets : UInt32
  log2NumBuckets : UInt32
  numItems : UInt32
  tail : Option A
  idealChainMaxlen : UInt32
  nonidealItems : UInt32
  ineffExpands : UInt32
  noexpand : Bool

/-- The handles, the pointer a map is known by, and the table its handles point to. -/
structure State (A : Type*) where
  hh : Handles A
  head : Option A
  tbl : Option (Table A)

/-- `HASH_INITIAL_NUM_BUCKETS`. -/
def hashInitialNumBuckets : UInt32 := 32
/-- `HASH_INITIAL_NUM_BUCKETS_LOG2`. -/
def hashInitialNumBucketsLog2 : UInt32 := 5
/-- `HASH_BKT_CAPACITY_THRESH`. -/
def hashBktCapacityThresh : UInt32 := 10

/-- `HASH_MAKE_TABLE`. -/
def hashMakeTable (head : A) : Table A where
  buckets := fun _ => .zero
  numBuckets := hashInitialNumBuckets
  log2NumBuckets := hashInitialNumBucketsLog2
  numItems := 0
  tail := some head
  idealChainMaxlen := 0
  nonidealItems := 0
  ineffExpands := 0
  noexpand := false

/-- `HASH_TO_BKT`. -/
def hashToBkt (hashv numBkts : UInt32) : Nat := (hashv &&& (numBkts - 1)).toNat

/-! ## §2. Jenkins' hash, the default `HASH_FCN`. -/

section Operations
variable [DecidableEq A] (fcn : Key → UInt32) (fuel : Nat)

/-- `HASH_FIND_IN_BKT`, from `out` on: keys are compared by length, then by `memcmp`. -/
def hashFindInBkt (hh : Handles A) (key : Key) : Nat → Option A → Option (Option A)
  | _, none => some none
  | 0, some _ => none
  | fuel + 1, some out =>
      if (hh.key out).length = key.length ∧ hh.key out = key then some (some out)
      else hashFindInBkt hh key fuel (hh.chain.next out)

/-- `HASH_FIND`. -/
def hashFind (s : State A) (key : Key) : Option (Option A) :=
  match s.head, s.tbl with
  | some _, some tbl =>
      hashFindInBkt s.hh key fuel (tbl.buckets (hashToBkt (fcn key) tbl.numBuckets)).hhHead
  | _, _ => some none

/-- `HASH_COUNT`. -/
def hashCount (s : State A) : UInt32 :=
  match s.head, s.tbl with
  | some _, some tbl => tbl.numItems
  | _, _ => 0

/-- `HASH_ITER`: the elements visited, each `next` being read before its round. -/
def hashIter (s : State A) : Option (List A) :=
  loop (fun _ el => s.hh.order.next el) (fun visited el => visited ++ [el]) fuel s.head []

/-! ## §4. Adding and expanding. -/

/-- What the loops of `HASH_EXPAND_BUCKETS` change. -/
structure Expansion (A : Type*) where
  chain : Links A
  newBuckets : Nat → Bucket A
  nonidealItems : UInt32

/-- One element moves to its new bucket. -/
def expandElement (hashv : A → UInt32) (numBuckets ideal : UInt32) (e : Expansion A) (thh : A) :
    Expansion A :=
  let bkt := hashToBkt (hashv thh) (numBuckets * 2)
  let newbkt := e.newBuckets bkt
  let count := newbkt.count + 1
  let expandMult := if count > ideal then count / ideal else newbkt.expandMult
  { chain := e.chain.link thh none newbkt.hhHead
    newBuckets := Function.update e.newBuckets bkt ⟨some thh, count, expandMult⟩
    nonidealItems := if count > ideal then e.nonidealItems + 1 else e.nonidealItems }

/-- The inner loop: the elements of one old bucket, `hh_next` being read before they move. -/
def expandBucket (hashv : A → UInt32) (numBuckets ideal : UInt32) (e : Expansion A) (hhHead : Option A) :
    Option (Expansion A) :=
  loop (fun e thh => e.chain.next thh) (expandElement hashv numBuckets ideal) fuel hhHead e

/-- `ideal_chain_maxlen` of an expansion. -/
def idealChainMaxlen (tbl : Table A) : UInt32 :=
  (tbl.numItems >>> (tbl.log2NumBuckets + 1))
    + if tbl.numItems &&& (tbl.numBuckets * 2 - 1) ≠ 0 then 1 else 0

/-- The table with its new buckets. -/
def Table.expanded (tbl : Table A) (e : Expansion A) : Table A :=
  let ineffExpands := if e.nonidealItems > tbl.numItems >>> 1 then tbl.ineffExpands + 1 else 0
  { tbl with
    buckets := e.newBuckets
    numBuckets := tbl.numBuckets * 2
    log2NumBuckets := tbl.log2NumBuckets + 1
    idealChainMaxlen := idealChainMaxlen tbl
    nonidealItems := e.nonidealItems
    ineffExpands := ineffExpands
    noexpand := if ineffExpands > 1 then true else tbl.noexpand }

/-- `HASH_EXPAND_BUCKETS`. -/
def hashExpandBuckets (hh : Handles A) (tbl : Table A) : Option (Handles A × Table A) :=
  if tbl.numBuckets * 2 = 0 then none
  else do
    let e ← (List.range tbl.numBuckets.toNat).foldlM
      (fun e i => expandBucket fuel hh.hashv tbl.numBuckets (idealChainMaxlen tbl) e (tbl.buckets i).hhHead)
      ⟨hh.chain, fun _ => .zero, 0⟩
    some ({ hh with chain := e.chain }, tbl.expanded e)

/-- The element is put in front of the chain of its bucket. -/
def pushBucket (hh : Handles A) (tbl : Table A) (bkt : Nat) (add : A) : Handles A × Table A :=
  let head := tbl.buckets bkt
  ({ hh with chain := hh.chain.link add none head.hhHead },
    { tbl with
      buckets := Function.update tbl.buckets bkt ⟨some add, head.count + 1, head.expandMult⟩ })

/-- A bucket is due for an expansion. -/
def Table.overfull (tbl : Table A) (bkt : Nat) : Bool :=
  decide ((tbl.buckets bkt).count ≥ ((tbl.buckets bkt).expandMult + 1) * hashBktCapacityThresh)
    && !tbl.noexpand

/-- `HASH_ADD_TO_BKT`. -/
def hashAddToBkt (hh : Handles A) (tbl : Table A) (bkt : Nat) (add : A) :
    Option (Handles A × Table A) :=
  let (hh, tbl) := pushBucket hh tbl bkt add
  if tbl.overfull bkt then hashExpandBuckets fuel hh tbl else some (hh, tbl)

/-- `HASH_ADD_KEYPTR`, `add` being the address of the new element. -/
def hashAdd (s : State A) (add : A) (key : Key) : Option (State A) := do
  let hh := { s.hh with key := Function.update s.hh.key add key }
  let (hh, head, tbl) :=
    match s.head, s.tbl with
    | some head, some tbl =>
        ({ hh with order := hh.order.link add tbl.tail none }, head, { tbl with tail := some add })
    | _, _ => ({ hh with order := hh.order.link add none none }, add, hashMakeTable add)
  let tbl := { tbl with numItems := tbl.numItems + 1 }
  let hh := { hh with hashv := Function.update hh.hashv add (fcn key) }
  let (hh, tbl) ← hashAddToBkt fuel hh tbl (hashToBkt (fcn key) tbl.numBuckets) add
  some ⟨hh, some head, some tbl⟩

/-! ## §5. Deleting. -/

/-- `HASH_DEL_IN_BKT`. -/
def hashDelInBkt (hh : Handles A) (tbl : Table A) (bkt : Nat) (del : A) : Handles A × Table A :=
  let head := tbl.buckets bkt
  let hhHead := if head.hhHead = some del then hh.chain.next del else head.hhHead
  ({ hh with chain := hh.chain.unlink del },
    { tbl with
      buckets := Function.update tbl.buckets bkt ⟨hhHead, head.count - 1, head.expandMult⟩ })

/-- `HASH_DELETE`: the last element takes the table with it. -/
def hashDelete (s : State A) (del : A) : State A :=
  match s.tbl with
  | none => s
  | some tbl =>
      if s.hh.order.prev del = none ∧ s.hh.order.next del = none then { s with head := none, tbl := none }
      else
        let tail := if tbl.tail = some del then s.hh.order.prev del else tbl.tail
        let head := if s.hh.order.prev del = none then s.hh.order.next del else s.head
        let hh := { s.hh with order := s.hh.order.unlink del }
        let (hh, tbl) := hashDelInBkt hh { tbl with tail := tail }
          (hashToBkt (hh.hashv del) tbl.numBuckets) del
        ⟨hh, head, some { tbl with numItems := tbl.numItems - 1 }⟩

/-! ## §6. The integrity check. -/

end Operations

end RdmaPaxos.UtHash
