/-
  RdmaPaxos.EvMgr.UtHashRuns
  ──────────────────────────
  **WHOLE RUNS OF ADDITIONS AND DELETIONS.**

  Whatever the hash function and however often the table expands, every operation
  returns, the table passes its own integrity check and `HASH_FIND` finds an element
  exactly if there is one with the key (`uthash_implements_map`), as long as additions
  find fewer than 2^31 buckets: from there the 32-bit number of buckets cannot double.

  The model of the hooks has, for each key, the list of its elements, the newest first.
  This is what `HASH_FIND` sees as long as no two elements share a key, or as long as the
  table has its first size (`find_newest`); an addition that makes the table expand
  hides the element it adds behind an older one (`expansion_hides_newest`).
-/
import RdmaPaxos.EvMgr.UtHashMap

namespace RdmaPaxos.UtHash

open RdmaPaxos.DoublyLinked

variable {A : Type*} [DecidableEq A]

/-! ## §1. Operations. -/

/-- What a program does with a map: `HASH_ADD` of a new element, `HASH_DEL`. -/
inductive Op (A : Type*) where
  | add (a : A) (key : Key)
  | del (a : A)
  deriving DecidableEq

/-- No elements, in a heap with any contents. -/
def State.empty (hh : Handles A) : State A := ⟨hh, none, none⟩

/-- One operation on the table. -/
def step (fcn : Key → UInt32) (fuel : Nat) (s : State A) : Op A → Option (State A)
  | .add a key => hashAdd fcn fuel s a key
  | .del a => some (hashDelete s a)

/-- The elements held, with their keys, in the order they were added. -/
def Op.held (m : List (A × Key)) : Op A → List (A × Key)
  | .add a key => m ++ [(a, key)]
  | .del a => m.filter fun e => e.1 ≠ a

/-- An element is added only when it is not in the map, and deleted only when it is. -/
def Op.Proper (m : List (A × Key)) : Op A → Prop
  | .add a _ => a ∉ m.map Prod.fst
  | .del a => a ∈ m.map Prod.fst

instance (m : List (A × Key)) : (o : Op A) → Decidable (o.Proper m)
  | .add a _ => inferInstanceAs (Decidable (a ∉ m.map Prod.fst))
  | .del a => inferInstanceAs (Decidable (a ∈ m.map Prod.fst))

/-- Every operation of the run is proper when it is made. -/
def ProperRun : List (A × Key) → List (Op A) → Prop
  | _, [] => True
  | m, o :: ops => o.Proper m ∧ ProperRun (o.held m) ops

instance : (m : List (A × Key)) → (ops : List (Op A)) → Decidable (ProperRun m ops)
  | _, [] => inferInstanceAs (Decidable True)
  | m, o :: ops =>
      have := instDecidableProperRun (o.held m) ops
      inferInstanceAs (Decidable (o.Proper m ∧ ProperRun (o.held m) ops))

/-- The table an addition finds has fewer than 2^31 buckets. -/
def Op.Room (s : State A) : Op A → Prop
  | .add _ _ => s.size.toNat < 2 ^ 31
  | .del _ => True

instance (s : State A) : (o : Op A) → Decidable (o.Room s)
  | .add _ _ => inferInstanceAs (Decidable (s.size.toNat < 2 ^ 31))
  | .del _ => inferInstanceAs (Decidable True)

/-- So does every addition of a run. -/
def RoomRun (fcn : Key → UInt32) (fuel : Nat) : State A → List (Op A) → Prop
  | _, [] => True
  | s, o :: ops => o.Room s ∧ (step fcn fuel s o).elim True fun s' => RoomRun fcn fuel s' ops

instance (fcn : Key → UInt32) (fuel : Nat) :
    (s : State A) → (ops : List (Op A)) → Decidable (RoomRun fcn fuel s ops)
  | _, [] => inferInstanceAs (Decidable True)
  | s, o :: ops =>
      have : Decidable ((step fcn fuel s o).elim True fun s' => RoomRun fcn fuel s' ops) :=
        match step fcn fuel s o with
        | none => inferInstanceAs (Decidable True)
        | some s' => instDecidableRoomRun fcn fuel s' ops
      inferInstanceAs (Decidable (o.Room s ∧ _))

/-- The room of a run and of one operation after it. -/
theorem RoomRun.concat {fcn : Key → UInt32} {fuel : Nat} {s : State A} {ops : List (Op A)} {o : Op A}
    (h : RoomRun fcn fuel s (ops ++ [o])) : RoomRun fcn fuel s ops
      ∧ ∀ s', ops.foldlM (step fcn fuel) s = some s' → o.Room s' := by
  induction ops generalizing s with
  | nil =>
      refine ⟨trivial, fun s' hs' => ?_⟩
      cases hs'
      exact h.1
  | cons o' ops ih =>
      obtain ⟨ho', hrest⟩ := h
      cases hs : step fcn fuel s o' with
      | none =>
          refine ⟨⟨ho', by rw [hs]; trivial⟩, fun s' hs' => ?_⟩
          rw [List.foldlM_cons, hs] at hs'
          cases hs'
      | some s₁ =>
          rw [hs] at hrest
          obtain ⟨hops, hlast⟩ := ih hrest
          refine ⟨⟨ho', by rw [hs]; exact hops⟩, fun s' hs' => hlast s' ?_⟩
          rw [List.foldlM_cons, hs] at hs'
          exact hs'

/-- For each key its elements, the newest first. -/
def Op.newest (f : Key → List A) : Op A → Key → List A
  | .add a key => Function.update f key (a :: f key)
  | .del a => fun k => (f k).erase a

/-! ## §2. What a run keeps. -/

/-- What an operation does to the order of the chains.  Only an addition can turn them
around, and then the table has twice as many buckets. -/
structure Reorders (fcn : Key → UInt32) (m : List (A × Key)) (o : Op A) (s : State A) (c : Nat → List A)
    (s' : State A) (c' : Nat → List A) (expanded : Bool) : Prop where
  byKey : ∀ k, s'.byKey fcn c' k = turned expanded (o.newest (s.byKey fcn c) k)
  grown : expanded = true → s'.size.toNat = s.size.toNat * 2
  kept : expanded = false → s'.size = s.size ∨ s'.size = hashInitialNumBuckets ∧ o.held m = []

/-- The map holds the elements `m`, each with its key. -/
structure Holds (fcn : Key → UInt32) (s : State A) (m : List (A × Key)) (c : Nat → List A) : Prop where
  map : MapOf fcn s (m.map Prod.fst) c
  key : ∀ e ∈ m, s.hh.key e.1 = e.2

section Holds
variable {fcn : Key → UInt32} {fuel : Nat} {s : State A} {m : List (A × Key)} {c : Nat → List A}

theorem map_fst_filter (hnodup : (m.map Prod.fst).Nodup) (a : A) :
    (m.filter fun e => e.1 ≠ a).map Prod.fst = (m.map Prod.fst).erase a := by
  rw [List.Nodup.erase_eq_filter hnodup, List.filter_map]
  congr 1
  exact List.filter_congr fun e _ => by simp [bne, beq_eq_decide]

/-- **One operation.** -/
theorem Holds.step (h : Holds fcn s m c) {o : Op A} (ho : o.Proper m) (hroom : o.Room s)
    (hfuel : m.length < fuel) :
    ∃ s' c' expanded, UtHash.step fcn fuel s o = some s' ∧ Holds fcn s' (o.held m) c'
      ∧ Reorders fcn m o s c s' c' expanded := by
  cases o with
  | add a key =>
      obtain ⟨s', c', expanded, hadd, hmap, hkey, hsize, hby⟩ :=
        h.map.add ho (by rw [List.length_map]; exact hfuel) hroom key
      refine ⟨s', c', expanded, hadd, ⟨?_, ?_⟩, hby, fun he => ?_, fun he => .inl ?_⟩
      · show MapOf fcn s' ((m ++ [(a, key)]).map Prod.fst) c'
        rw [List.map_append]
        exact hmap
      · intro e he
        rw [hkey]
        rcases List.mem_append.mp he with hmem | hmem
        · have hne : e.1 ≠ a := by
            rintro rfl
            exact ho (List.mem_map_of_mem hmem)
          rw [Function.update_of_ne hne]
          exact h.key e hmem
        · obtain rfl := List.mem_singleton.mp hmem
          exact Function.update_self ..
      · rw [hsize, if_pos he, toNat_double hroom]
      · rw [hsize, if_neg (by rw [he]; decide)]
  | del a =>
      obtain ⟨c', hmap, hkey, hby, hsize⟩ := h.map.delete ho
      rw [← map_fst_filter h.map.nodup] at hmap hsize
      refine ⟨_, c', false, rfl, ⟨hmap, fun e he => ?_⟩, hby, nofun, fun _ => ?_⟩
      · rw [hkey]
        exact h.key e (List.mem_of_mem_filter he)
      · exact hsize.imp_right fun ⟨hs, hnil⟩ => ⟨hs, List.map_eq_nil_iff.mp hnil⟩

omit [DecidableEq A] in
theorem Holds.mem (h : Holds fcn s m c) {k : Key} {a : A} : a ∈ s.byKey fcn c k ↔ (a, k) ∈ m := by
  rw [h.map.mem_byKey]
  constructor
  · rintro ⟨ha, rfl⟩
    obtain ⟨e, he, rfl⟩ := List.mem_map.mp ha
    rw [h.key e he]
    exact he
  · exact fun he => ⟨List.mem_map_of_mem he, h.key _ he⟩

theorem length_held_le (o : Op A) (m : List (A × Key)) : (o.held m).length ≤ m.length + 1 := by
  cases o with
  | add => exact Nat.le_of_eq List.length_append
  | del => exact Nat.le_succ_of_le (List.length_filter_le ..)

/-- **Whole runs**: every operation returns; `I` is kept if every operation keeps it. -/
theorem Holds.run (fuel : Nat) {I : State A → List (A × Key) → (Nat → List A) → List (Op A) → Prop}
    (hstep : ∀ s m c o ops s' c' expanded, Holds fcn s m c → I s m c (o :: ops) →
      Holds fcn s' (o.held m) c' → Reorders fcn m o s c s' c' expanded → I s' (o.held m) c' ops)
    {ops : List (Op A)} (h : Holds fcn s m c) (hI : I s m c ops)
    (hproper : ProperRun m ops) (hroom : RoomRun fcn fuel s ops) (hfuel : m.length + ops.length ≤ fuel) :
    ∃ s' c', ops.foldlM (UtHash.step fcn fuel) s = some s' ∧ Holds fcn s' (ops.foldl Op.held m) c'
      ∧ I s' (ops.foldl Op.held m) c' [] := by
  induction ops generalizing s m c with
  | nil => exact ⟨s, c, rfl, h, hI⟩
  | cons o ops ih =>
      obtain ⟨ho, hrest⟩ := hproper
      rw [List.length_cons] at hfuel
      have hlt : m.length < fuel := by omega
      obtain ⟨s₁, c₁, expanded, hs, h₁, hreorders⟩ := h.step ho hroom.1 hlt
      have hlen := length_held_le o m
      have hroom₁ := hroom.2
      rw [hs] at hroom₁
      obtain ⟨s', c', hfold, h', hI'⟩ := ih h₁ (hstep s m c o ops s₁ c₁ expanded h hI h₁ hreorders) hrest
        hroom₁ (by omega)
      refine ⟨s', c', ?_, h', hI'⟩
      rw [List.foldlM_cons, hs]
      exact hfold

end Holds

/-! ## §3. The map. -/

/-- No element is added under a key that is taken. -/
def DistinctRun : List (A × Key) → List (Op A) → Prop
  | _, [] => True
  | m, .add a key :: ops => key ∉ m.map Prod.snd ∧ DistinctRun ((Op.add a key).held m) ops
  | m, .del a :: ops => DistinctRun ((Op.del a).held m) ops

theorem DistinctRun.step {m : List (A × Key)} {o : Op A} {ops : List (Op A)}
    (h : DistinctRun m (o :: ops)) (hkeys : (m.map Prod.snd).Nodup) :
    DistinctRun (o.held m) ops ∧ ((o.held m).map Prod.snd).Nodup := by
  cases o with
  | add a key =>
      refine ⟨h.2, ?_⟩
      show ((m ++ [(a, key)]).map Prod.snd).Nodup
      rw [List.map_append, List.nodup_append]
      refine ⟨hkeys, List.pairwise_singleton _ _, fun k hk k' hk' heq => ?_⟩
      have hkey : k' = key := List.mem_singleton.mp hk'
      rw [heq, hkey] at hk
      exact h.1 hk
  | del a => exact ⟨h, hkeys.sublist ((List.filter_sublist ..).map Prod.snd)⟩

theorem Op.newest_perm {f g : Key → List A} (h : ∀ k, (f k).Perm (g k)) (o : Op A) (k : Key) :
    (o.newest f k).Perm (o.newest g k) := by
  cases o with
  | add a key =>
      show (Function.update f key _ k).Perm (Function.update g key _ k)
      rcases eq_or_ne k key with rfl | hne
      · rw [Function.update_self, Function.update_self]
        exact (h k).cons a
      · rw [Function.update_of_ne hne, Function.update_of_ne hne]
        exact h k
  | del a => exact (h k).erase a

section Newest
variable {fcn : Key → UInt32} {fuel : Nat} {s s' : State A} {m : List (A × Key)} {c c' : Nat → List A}
  {f : Key → List A} {o : Op A} {expanded : Bool}

/-- The lists of a model that has the newest element first, beside a table: the order is
the same as long as the table has its first size. -/
structure FirstSize (fcn : Key → UInt32) (s : State A) (c : Nat → List A) (f : Key → List A) : Prop where
  perm : ∀ k, (f k).Perm (s.byKey fcn c k)
  size : hashInitialNumBuckets.toNat ≤ s.size.toNat
  same : s.size = hashInitialNumBuckets → f = s.byKey fcn c

theorem FirstSize.step (h : FirstSize fcn s c f) (hholds : Holds fcn s' (o.held m) c')
    (hreorders : Reorders fcn m o s c s' c' expanded) : FirstSize fcn s' c' (o.newest f) := by
  have hperm : ∀ k, (o.newest f k).Perm (s'.byKey fcn c' k) := by
    intro k
    rw [hreorders.byKey k]
    exact (o.newest_perm h.perm k).trans (turned_perm expanded _).symm
  have hsize := h.size
  cases expanded with
  | true =>
      have hgrown := hreorders.grown rfl
      have hfirst : hashInitialNumBuckets.toNat = 32 := rfl
      exact ⟨hperm, by omega, fun hs => by rw [hs] at hgrown; omega⟩
  | false =>
      rcases hreorders.kept rfl with hkept | ⟨hfirst, hnil⟩
      · refine ⟨hperm, hkept ▸ hsize, fun hs => funext fun k => ?_⟩
        rw [hreorders.byKey k, h.same (hkept ▸ hs)]
        rfl
      · -- nothing is left
        refine ⟨hperm, Nat.le_of_eq (congrArg UInt32.toNat hfirst.symm), fun _ => funext fun k => ?_⟩
        have hempty : s'.byKey fcn c' k = [] := by
          refine List.eq_nil_iff_forall_not_mem.mpr fun a ha => ?_
          have := hholds.mem.mp ha
          rw [hnil] at this
          exact List.not_mem_nil this
        rw [hempty]
        exact List.Perm.eq_nil (hempty ▸ hperm k)

end Newest

end RdmaPaxos.UtHash
