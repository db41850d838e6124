/-
  RdmaPaxos.Checkpoint.Store
  ──────────────────────────
  **THE CHECKPOINTS OF A GROUP** (`guard.py`).

  Every machine keeps its checkpoints in the directory `STORE_BASE`.  Which file is the
  latest, and what the next one is called, is read off the file names each time:

      checkpoint_1.zip, checkpoint_2.zip, …, checkpoint_n.zip

  `inner_checkpoint` adds the next file and then mirrors its whole directory to the other
  machines with `rsync --delete`; starting the guard empties the directory.  Over any such
  history, on any machines, each directory is a list of checkpoints: the next name is new,
  and `inner_restore` takes the last one (`checkpoint_store_refines`).  If one machine takes
  all checkpoints, the others have its first ones (`mirrored_store_is_earlier`).

  An `rsync` replaces the other directory as a whole, or does not happen.
-/
import RdmaPaxos.Checkpoint.ExtRes

namespace RdmaPaxos.Checkpoint

/-! ## §1. Numbers and names. -/

/-- The white space `int` ignores. -/
def spaces : Text := [' ', '\t', '\n', '\r', Char.ofNat 11, Char.ofNat 12]

/-- The characters `strip` removes. -/
def isSpace (c : Char) : Bool := spaces.contains c

/-- Python's `strip`. -/
def strip (t : Text) : Text := ((t.dropWhile isSpace).reverse.dropWhile isSpace).reverse

/-- The digits of a number. -/
def digits (t : Text) : Option Nat :=
  if t ≠ [] ∧ t.all Char.isDigit then some (Nat.ofDigitChars 10 t 0) else none

/-- `int(t)`; none where it raises `ValueError`. -/
def pyInt (t : Text) : Option Int :=
  match strip t with
  | '-' :: ds => (digits ds).map fun n => -(n : Int)
  | '+' :: ds => (digits ds).map fun n => (n : Int)
  | ds => (digits ds).map fun n => (n : Int)

/-- The beginning of the name of an archive. -/
def checkpointPrefix : Text := ['c', 'h', 'e', 'c', 'k', 'p', 'o', 'i', 'n', 't', '_']

/-- The end of the name of an archive. -/
def zipSuffix : Text := ['.', 'z', 'i', 'p']

/-- The number in a file name: what is between the two, whatever the last four
characters are. -/
def fileId (name : Text) : Option Int :=
  if checkpointPrefix <+: name then
    pyInt ((name.take (name.length - zipSuffix.length)).drop checkpointPrefix.length)
  else none

/-- `"checkpoint_%d" % id`. -/
def baseName (id : Int) : Text :=
  checkpointPrefix ++ if id < 0 then '-' :: Nat.toDigits 10 id.natAbs else Nat.toDigits 10 id.natAbs

/-- The loop of `getMaxCheckPointID`, `maxId` so far. -/
def maxFrom : Int → List Text → Int
  | maxId, [] => maxId
  | maxId, name :: files =>
      match fileId name with
      | some id => maxFrom (if maxId < id then id else maxId) files
      | none => maxFrom maxId files

/-- `getMaxCheckPointID`, over the files `os.walk` gives. -/
def getMaxCheckPointID (files : List Text) : Int := maxFrom 0 files

/-- `getCurrBaseName`, in `STORE_BASE`. -/
def getCurrBaseName (files : List Text) : Text := baseName (getMaxCheckPointID files)

/-- `getNextBaseName`, in `STORE_BASE`. -/
def getNextBaseName (files : List Text) : Text := baseName (getMaxCheckPointID files + 1)

/-! ## §2. The directories. -/

/-- The files of `STORE_BASE`, with what is in the archive. -/
abbrev Store (I : Type) := List (Text × I)

variable {I : Type}

/-- A file is written; one of this name is replaced. -/
def Store.write (s : Store I) (name : Text) (image : I) : Store I :=
  (name, image) :: s.filter fun e => e.1 ≠ name

/-- `shutil.make_archive` in `inner_checkpoint`. -/
def Store.archive (s : Store I) (files : List Text) (image : I) : Store I :=
  s.write (getNextBaseName files ++ zipSuffix) image

/-- The archive `inner_restore` unpacks, whatever `round_id` it is called with; none if the
file is missing. -/
def Store.restored (s : Store I) (files : List Text) : Option I :=
  s.lookup (getCurrBaseName files ++ zipSuffix)

/-- What happens to the directories.  `files` is the order in which `os.walk` lists them. -/
inductive StoreOp (I : Type) where
  | init (i : Nat)
  | checkpoint (i : Nat) (files : List Text) (image : I)
  | rsync (i j : Nat)

/-- The stores of all machines after an operation. -/
def StoreOp.run (s : Nat → Store I) : StoreOp I → Nat → Store I
  | .init i => Function.update s i []
  | .checkpoint i files image => Function.update s i ((s i).archive files image)
  | .rsync i j => Function.update s j (s i)

/-- The same on lists of checkpoints. -/
def StoreOp.spec (h : Nat → List I) : StoreOp I → Nat → List I
  | .init i => Function.update h i []
  | .checkpoint i _ image => Function.update h i (h i ++ [image])
  | .rsync i j => Function.update h j (h i)

/-- `os.walk` lists the files that are there, in some order. -/
def Lists (s : Store I) (files : List Text) : Prop := files.Perm (s.map Prod.fst)

instance (s : Store I) (files : List Text) : Decidable (Lists s files) :=
  inferInstanceAs (Decidable (files.Perm (s.map Prod.fst)))

/-- `checkpoint` is given the files that are in the store. -/
def StoreOp.Proper (s : Nat → Store I) : StoreOp I → Prop
  | .checkpoint i files _ => Lists (s i) files
  | _ => True

instance (s : Nat → Store I) : (o : StoreOp I) → Decidable (o.Proper s)
  | .checkpoint i files _ => inferInstanceAs (Decidable (Lists (s i) files))
  | .init _ | .rsync _ _ => inferInstanceAs (Decidable True)

/-- Every operation of the history is proper when it is made. -/
def ProperHistory : (Nat → Store I) → List (StoreOp I) → Prop
  | _, [] => True
  | s, o :: ops => o.Proper s ∧ ProperHistory (o.run s) ops

instance : (s : Nat → Store I) → (ops : List (StoreOp I)) → Decidable (ProperHistory s ops)
  | _, [] => inferInstanceAs (Decidable True)
  | s, o :: ops =>
      have := instDecidableProperHistory (o.run s) ops
      inferInstanceAs (Decidable (o.Proper s ∧ ProperHistory (o.run s) ops))

/-! ## §3. A name says its number. -/

/-- A digit is no white space. -/
theorem isSpace_digit {c : Char} (hc : c.isDigit = true) : isSpace c = false := by
  have hspaces : spaces.all (fun c => !c.isDigit) = true := by decide
  by_contra hne
  have hmem : c ∈ spaces := List.contains_iff_mem.mp (Bool.ne_false_iff.mp hne)
  have hno := List.all_eq_true.mp hspaces c hmem
  rw [hc] at hno
  cases hno

theorem dropWhile_digits {t : Text} (ht : ∀ c ∈ t, c.isDigit = true) : t.dropWhile isSpace = t := by
  cases t with
  | nil => rfl
  | cons c t => rw [List.dropWhile_cons, isSpace_digit (ht c List.mem_cons_self)]; rfl

/-- `strip` leaves a number alone. -/
theorem strip_digits {t : Text} (ht : ∀ c ∈ t, c.isDigit = true) : strip t = t := by
  unfold strip
  rw [dropWhile_digits ht, dropWhile_digits fun c hc => ht c (List.mem_reverse.mp hc), List.reverse_reverse]

/-- **`int` reads back what `%d` wrote.** -/
theorem pyInt_toDigits (n : Nat) : pyInt (Nat.toDigits 10 n) = some n := by
  have hdigits : ∀ c ∈ Nat.toDigits 10 n, c.isDigit = true :=
    fun c hc => Nat.isDigit_of_mem_toDigits (by decide) (by decide) hc
  have hread : digits (Nat.toDigits 10 n) = some n := by
    unfold digits
    rw [if_pos ⟨Nat.toDigits_ne_nil, List.all_eq_true.mpr hdigits⟩,
      Nat.ofDigitChars_toDigits (by decide) (by decide)]
  unfold pyInt
  rw [strip_digits hdigits]
  split
  next ds heq => exact absurd (hdigits '-' (heq ▸ List.mem_cons_self)) (by decide)
  next ds heq => exact absurd (hdigits '+' (heq ▸ List.mem_cons_self)) (by decide)
  next => rw [hread]; rfl

/-- The file of checkpoint `n`. -/
def zipName (n : Nat) : Text := baseName n ++ zipSuffix

/-- The name of an archive. -/
theorem zipName_eq (n : Nat) : zipName n = checkpointPrefix ++ Nat.toDigits 10 n ++ zipSuffix := by
  unfold zipName baseName
  rw [if_neg (by omega), Int.natAbs_natCast]

/-- The number in the name of an archive is read back. -/
theorem fileId_zipName (n : Nat) : fileId (zipName n) = some n := by
  unfold fileId
  rw [zipName_eq, if_pos (by rw [List.append_assoc]; exact List.prefix_append ..), List.length_append,
    Nat.add_sub_cancel, List.take_left, List.drop_left]
  exact pyInt_toDigits n

/-- Archives with different numbers have different names. -/
theorem zipName_inj {m n : Nat} (h : zipName m = zipName n) : m = n := by
  have hid := fileId_zipName m
  rw [h, fileId_zipName] at hid
  exact (Int.ofNat.inj (Option.some.inj hid)).symm

/-! ## §4. The largest number. -/

section Largest
variable {files : List Text} {maxId : Int}

/-- The maximum is no less than what it starts from. -/
theorem le_maxFrom (maxId : Int) (files : List Text) : maxId ≤ maxFrom maxId files := by
  induction files generalizing maxId with
  | nil => exact Int.le_refl _
  | cons name files ih =>
      unfold maxFrom
      split
      · refine Int.le_trans ?_ (ih _)
        split <;> omega
      · exact ih maxId

/-- It is no less than the number of any file. -/
theorem fileId_le_maxFrom {name : Text} (hname : name ∈ files) {id : Int} (hid : fileId name = some id) :
    id ≤ maxFrom maxId files := by
  induction files generalizing maxId with
  | nil => exact absurd hname List.not_mem_nil
  | cons head files ih =>
      unfold maxFrom
      rcases List.mem_cons.mp hname with rfl | hmem
      · rw [hid]
        refine Int.le_trans ?_ (le_maxFrom _ files)
        split <;> omega
      · split <;> exact ih hmem

/-- It is one of these. -/
theorem maxFrom_attained (maxId : Int) (files : List Text) :
    maxFrom maxId files = maxId ∨ ∃ name ∈ files, fileId name = some (maxFrom maxId files) := by
  induction files generalizing maxId with
  | nil => exact .inl rfl
  | cons name files ih =>
      unfold maxFrom
      split
      next id hid =>
        rcases ih (if maxId < id then id else maxId) with heq | ⟨name', hmem, hid'⟩
        · rw [heq]
          split
          · exact .inr ⟨name, List.mem_cons_self, hid⟩
          · exact .inl rfl
        · exact .inr ⟨name', List.mem_cons_of_mem _ hmem, hid'⟩
      next =>
        rcases ih maxId with heq | ⟨name', hmem, hid'⟩
        · exact .inl heq
        · exact .inr ⟨name', List.mem_cons_of_mem _ hmem, hid'⟩

/-- The files are the checkpoints `1` to `n`, in any order. -/
theorem getMaxCheckPointID_eq {n : Nat} (hfiles : ∀ name, name ∈ files ↔ ∃ k < n, name = zipName (k + 1)) :
    getMaxCheckPointID files = n := by
  unfold getMaxCheckPointID
  apply Int.le_antisymm
  · rcases maxFrom_attained 0 files with heq | ⟨name, hmem, hid⟩
    · omega
    · obtain ⟨k, hk, rfl⟩ := (hfiles name).mp hmem
      rw [fileId_zipName] at hid
      have := Option.some.inj hid
      omega
  · cases n with
    | zero => exact le_maxFrom 0 files
    | succ n =>
        exact fileId_le_maxFrom ((hfiles _).mpr ⟨n, Nat.lt_succ_self n, rfl⟩) (fileId_zipName (n + 1))

end Largest

/-! ## §5. A directory is a list of checkpoints. -/

/-- The directory has the checkpoints `h`, the first of them as `checkpoint_1.zip`. -/
structure StoreOf (s : Store I) (h : List I) : Prop where
  names : ∀ name, name ∈ s.map Prod.fst ↔ ∃ k < h.length, name = zipName (k + 1)
  read : ∀ k < h.length, s.lookup (zipName (k + 1)) = h[k]?

/-- An empty store has no history. -/
theorem storeOf_nil : StoreOf ([] : Store I) [] := by
  refine ⟨fun name => ?_, fun k hk => absurd hk (Nat.not_lt_zero k)⟩
  simp

section StoreOf
variable {s : Store I} {h : List I} {files : List Text}

/-- The highest number is that of the last checkpoint. -/
theorem StoreOf.maxId (hs : StoreOf s h) (hfiles : Lists s files) : getMaxCheckPointID files = h.length :=
  getMaxCheckPointID_eq fun name => hfiles.mem_iff.trans (hs.names name)

/-- The next name is that of the checkpoint after it. -/
theorem StoreOf.next (hs : StoreOf s h) (hfiles : Lists s files) :
    getNextBaseName files ++ zipSuffix = zipName (h.length + 1) := by
  unfold getNextBaseName
  rw [hs.maxId hfiles]
  rfl

/-- **The next name is new.** -/
theorem StoreOf.fresh (hs : StoreOf s h) : zipName (h.length + 1) ∉ s.map Prod.fst := by
  intro hmem
  obtain ⟨k, hk, heq⟩ := (hs.names _).mp hmem
  have := zipName_inj heq
  omega

/-- The next archive replaces no other. -/
theorem StoreOf.write_eq (hs : StoreOf s h) (image : I) :
    s.write (zipName (h.length + 1)) image = (zipName (h.length + 1), image) :: s := by
  unfold Store.write
  rw [List.filter_eq_self.mpr]
  intro e he
  refine decide_eq_true fun heq => hs.fresh ?_
  rw [← heq]
  exact List.mem_map_of_mem he

/-- **One more checkpoint.** -/
theorem StoreOf.archive (hs : StoreOf s h) (hfiles : Lists s files) (image : I) :
    StoreOf (s.archive files image) (h ++ [image]) := by
  unfold Store.archive
  rw [hs.next hfiles, hs.write_eq]
  constructor
  · intro name
    rw [List.map_cons, List.mem_cons, hs.names, List.length_append, List.length_singleton]
    constructor
    · rintro (rfl | ⟨k, hk, rfl⟩)
      · exact ⟨h.length, Nat.lt_succ_self _, rfl⟩
      · exact ⟨k, Nat.lt_succ_of_lt hk, rfl⟩
    · rintro ⟨k, hk, rfl⟩
      rcases Nat.lt_succ_iff_lt_or_eq.mp hk with hlt | rfl
      · exact .inr ⟨k, hlt, rfl⟩
      · exact .inl rfl
  · intro k hk
    rw [List.length_append, List.length_singleton] at hk
    rcases Nat.lt_succ_iff_lt_or_eq.mp hk with hlt | rfl
    · have hne : zipName (k + 1) ≠ zipName (h.length + 1) := fun heq => by
        have := zipName_inj heq
        omega
      rw [List.lookup_cons, beq_false_of_ne hne, List.getElem?_append_left hlt]
      exact hs.read k hlt
    · rw [List.lookup_cons, beq_self_eq_true, List.getElem?_concat_length]

/-- **`inner_restore` takes the last one**, and finds none only if there is none. -/
theorem StoreOf.restored (hs : StoreOf s h) (hfiles : Lists s files) : s.restored files = h.getLast? := by
  have hcurr : getCurrBaseName files ++ zipSuffix = zipName h.length := by
    unfold getCurrBaseName
    rw [hs.maxId hfiles]
    rfl
  unfold Store.restored
  rw [hcurr, List.getLast?_eq_getElem?]
  cases hlen : h.length with
  | zero =>
      -- there is no `checkpoint_0.zip`
      rw [List.getElem?_eq_none (by omega), List.lookup_eq_none_iff]
      intro e he
      obtain ⟨k, hk, -⟩ := (hs.names e.1).mp (List.mem_map_of_mem he)
      omega
  | succ n => exact hs.read n (by omega)

end StoreOf

/-! ## §6. Histories. -/

/-- **One operation.** -/
theorem storeOf_step {s : Nat → Store I} {h : Nat → List I} (hs : ∀ i, StoreOf (s i) (h i)) {o : StoreOp I}
    (ho : o.Proper s) (i : Nat) : StoreOf (o.run s i) (o.spec h i) := by
  have hset : ∀ (j : Nat) {t : Store I} {g : List I}, StoreOf t g →
      StoreOf (Function.update s j t i) (Function.update h j g i) := by
    intro j t g ht
    by_cases hij : i = j
    · subst hij
      rw [Function.update_self, Function.update_self]
      exact ht
    · rw [Function.update_of_ne hij, Function.update_of_ne hij]
      exact hs i
  cases o with
  | init j => exact hset j storeOf_nil
  | checkpoint j files image => exact hset j ((hs j).archive ho image)
  | rsync j k => exact hset k (hs j)

/-- **The run lemma**: the stores follow their histories. -/
theorem storeOf_history {s : Nat → Store I} {h : Nat → List I} (hs : ∀ i, StoreOf (s i) (h i))
    {ops : List (StoreOp I)} (hops : ProperHistory s ops) :
    ∀ i, StoreOf (ops.foldl StoreOp.run s i) (ops.foldl StoreOp.spec h i) := by
  induction ops generalizing s h with
  | nil => exact hs
  | cons o ops ih => exact ih (fun i => storeOf_step hs hops.1 i) hops.2

/-- **The directories are lists of checkpoints.**  After any history of guards that start,
take checkpoints and mirror their directories, in whatever order files are listed: the
numbering goes on where it is, the next file replaces no other one, and a restore takes the
checkpoint that was added last. -/
theorem checkpoint_store_refines {ops : List (StoreOp I)} (hops : ProperHistory (fun _ => []) ops) (i : Nat)
    {files : List Text} (hfiles : Lists (ops.foldl StoreOp.run (fun _ => []) i) files) :
    getMaxCheckPointID files = (ops.foldl StoreOp.spec (fun _ => []) i).length
      ∧ getNextBaseName files ++ zipSuffix ∉ files
      ∧ (ops.foldl StoreOp.run (fun _ => []) i).restored files
        = (ops.foldl StoreOp.spec (fun _ => []) i).getLast? := by
  have hs := storeOf_history (fun _ => storeOf_nil) hops i
  refine ⟨hs.maxId hfiles, ?_, hs.restored hfiles⟩
  rw [hs.next hfiles, hfiles.mem_iff]
  exact hs.fresh

/-- Two machines that take checkpoints at the same time, one of which mirrors its
directory to the other one, and a third one that restores. -/
def twoMachines : List (StoreOp Nat) :=
  [.init 1, .checkpoint 1 [] 10, .checkpoint 2 [] 20, .rsync 1 2, .checkpoint 1 [zipName 1] 11,
    .rsync 1 3]

/-- What the third machine restores. -/
theorem checkpoint_store_refines_third :
    ProperHistory (fun _ => []) twoMachines
      ∧ (twoMachines.foldl StoreOp.run (fun _ => []) 3).restored [zipName 1, zipName 2] = some 11 := by
  have hproper : ProperHistory (fun _ => []) twoMachines := by decide
  have hfiles : Lists (twoMachines.foldl StoreOp.run (fun _ => []) 3) [zipName 1, zipName 2] := by decide
  exact ⟨hproper, (checkpoint_store_refines hproper 3 hfiles).2.2⟩

/-! ## §7. One machine takes all checkpoints. -/

/-- Only machine `c` takes checkpoints, and only its directory is mirrored; its guard is not
started again. -/
def OnlyAt (c : Nat) : StoreOp I → Prop
  | .init i => i ≠ c
  | .checkpoint i _ _ => i = c
  | .rsync i _ => i = c

instance (c : Nat) : (o : StoreOp I) → Decidable (OnlyAt c o)
  | .init i => inferInstanceAs (Decidable (i ≠ c))
  | .checkpoint i _ _ => inferInstanceAs (Decidable (i = c))
  | .rsync i _ => inferInstanceAs (Decidable (i = c))

/-- The checkpoint an operation takes. -/
def StoreOp.image : StoreOp I → Option I
  | .checkpoint _ _ image => some image
  | _ => none

/-- The directory of `c` grows by what it takes. -/
theorem spec_own {c : Nat} {h : Nat → List I} {o : StoreOp I} (ho : OnlyAt c o) :
    o.spec h c = h c ++ o.image.toList := by
  cases o with
  | init j =>
      have hne : c ≠ j := Ne.symm ho
      show Function.update h j [] c = h c ++ []
      rw [Function.update_of_ne hne, List.append_nil]
  | checkpoint j files image =>
      have hj : j = c := ho
      subst hj
      exact Function.update_self ..
  | rsync j k =>
      have hj : j = c := ho
      subst hj
      show Function.update h k (h j) j = h j ++ []
      rw [List.append_nil]
      by_cases hk : j = k
      · rw [← hk, Function.update_self]
      · rw [Function.update_of_ne hk]

/-- Every other directory is emptied, replaced by that of `c`, or left. -/
theorem spec_other {c : Nat} {h : Nat → List I} {o : StoreOp I} (ho : OnlyAt c o) {i : Nat} (hi : i ≠ c) :
    o.spec h i = [] ∨ o.spec h i = h c ∨ o.spec h i = h i := by
  cases o with
  | init j =>
      by_cases hj : i = j
      · subst hj
        exact .inl (Function.update_self ..)
      · exact .inr (.inr (Function.update_of_ne hj ..))
  | checkpoint j files image =>
      have hj : j = c := ho
      exact .inr (.inr (Function.update_of_ne (hj ▸ hi) ..))
  | rsync j k =>
      have hj : j = c := ho
      subst hj
      by_cases hk : i = k
      · subst hk
        exact .inr (.inl (Function.update_self ..))
      · exact .inr (.inr (Function.update_of_ne hk ..))

/-- Over a history: the others have the first checkpoints of `c`. -/
theorem mirrored_history {c : Nat} {h : Nat → List I} (hh : ∀ i, h i <+: h c) {ops : List (StoreOp I)}
    (hops : ∀ o ∈ ops, OnlyAt c o) :
    ops.foldl StoreOp.spec h c = h c ++ ops.filterMap StoreOp.image
      ∧ ∀ i, ops.foldl StoreOp.spec h i <+: ops.foldl StoreOp.spec h c := by
  induction ops generalizing h with
  | nil => exact ⟨(List.append_nil _).symm, hh⟩
  | cons o ops ih =>
      have ho := hops o List.mem_cons_self
      have hown := spec_own (h := h) ho
      have hgrown : h c <+: o.spec h c := hown ▸ List.prefix_append ..
      have hstep : ∀ i, o.spec h i <+: o.spec h c := by
        intro i
        by_cases hi : i = c
        · subst hi
          exact List.prefix_refl _
        · rcases spec_other (h := h) ho hi with heq | heq | heq
          · rw [heq]
            exact List.nil_prefix
          · rw [heq]
            exact hgrown
          · rw [heq]
            exact (hh i).trans hgrown
      obtain ⟨hall, hothers⟩ := ih hstep fun o' ho' => hops o' (List.mem_cons_of_mem o ho')
      refine ⟨?_, hothers⟩
      rw [List.foldl_cons, hall, hown, List.append_assoc, List.filterMap_cons]
      cases o.image <;> rfl

/-- **Every machine has the first checkpoints of `c`**, when only `c` takes checkpoints and
its guard goes on running: the files `checkpoint_1.zip` up to the largest number in the
directory and no others, each with what `c` archived under that number, and a restore takes
the last of them.  A machine that missed some of the mirroring, or whose guard was started
again, is behind, never elsewhere. -/
theorem mirrored_store_is_earlier {c : Nat} {ops : List (StoreOp I)} (hops : ProperHistory (fun _ => []) ops)
    (honly : ∀ o ∈ ops, OnlyAt c o) (i : Nat) {files : List Text}
    (hfiles : Lists (ops.foldl StoreOp.run (fun _ => []) i) files) :
    getMaxCheckPointID files ≤ (ops.filterMap StoreOp.image).length
      ∧ (∀ name, name ∈ files ↔ ∃ k < (getMaxCheckPointID files).toNat, name = zipName (k + 1))
      ∧ (∀ k < (getMaxCheckPointID files).toNat,
        (ops.foldl StoreOp.run (fun _ => []) i).lookup (zipName (k + 1)) = (ops.filterMap StoreOp.image)[k]?)
      ∧ (ops.foldl StoreOp.run (fun _ => []) i).restored files
        = ((ops.filterMap StoreOp.image).take (getMaxCheckPointID files).toNat).getLast? := by
  have hs := storeOf_history (fun _ => storeOf_nil) hops i
  obtain ⟨hall, hothers⟩ := mirrored_history (c := c) (h := fun _ => []) (fun _ => List.prefix_refl _) honly
  have hi := hothers i
  rw [hall, List.nil_append] at hi
  rw [hs.restored hfiles, hs.maxId hfiles, Int.toNat_natCast, ← List.prefix_iff_eq_take.mp hi]
  refine ⟨Int.ofNat_le.mpr hi.length_le, fun name => hfiles.mem_iff.trans (hs.names name), fun k hk => ?_, rfl⟩
  obtain ⟨later, hlater⟩ := hi
  rw [hs.read k hk, ← hlater, List.getElem?_append_left hk]

/-- Two checkpoints of machine 1; the second one is not mirrored yet. -/
def oneMachine : List (StoreOp Nat) :=
  [.init 2, .checkpoint 1 [] 10, .rsync 1 2, .checkpoint 1 [zipName 1] 11]

/-- A mirror one checkpoint behind. -/
theorem mirrored_store_is_earlier_second :
    (oneMachine.foldl StoreOp.run (fun _ => []) 2).lookup (zipName 1) = some 10
      ∧ (oneMachine.foldl StoreOp.run (fun _ => []) 2).restored [zipName 1] = some 10 := by
  have hproper : ProperHistory (fun _ => []) oneMachine := by decide
  have honly : ∀ o ∈ oneMachine, OnlyAt 1 o := by decide
  have hfiles : Lists (oneMachine.foldl StoreOp.run (fun _ => []) 2) [zipName 1] := by decide
  obtain ⟨-, -, hread, hrestored⟩ := mirrored_store_is_earlier hproper honly 2 hfiles
  exact ⟨hread 0 (by decide), hrestored⟩

end RdmaPaxos.Checkpoint
