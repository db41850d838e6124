/-
  RdmaPaxos.Checkpoint.ExtRes
  ───────────────────────────
  **FILES IN A CHECKPOINT** (`generate_fd_index`, `pack_ext_res` and `unpack_ext_res`
  in `guard.py`).

      checkpoint                                      restore
      /a/b/log      ──copy──▶  tmp/fd_dir/log   ──copyfile──▶  /a/b/log
      /data/store/  ─copytree▶ tmp/ext_res_dir/ ────move─────▶ /data/ext_res_dir/

  The files a process holds open go into one directory under their base names, in the
  order of `fd_index.txt`, and come back by those.  The tree `/data/store/` goes in under
  another name, and is moved back into its parent under that name, after what was there
  has been removed.

    • `round_trips_iff` — every listed file and the tree `/data/store/` come back as they
      were exactly if there was no such tree, of the files with one name all have the
      content of the last, and each has a place on the machine they are restored on;
    • `round_trip_loses_store` — a checkpoint with both mistakes, and a restore that
      reports success.

  Trees have directories and regular files; links, modes and failing disks are left out.
  A string is a Python 2 string, a list of bytes.
-/
import RdmaPaxos.Lib.FileTree

namespace RdmaPaxos.Checkpoint

open RdmaPaxos.FileTree

/-! ## §1. Names and the text of the index. -/

/-- A text, as a list of characters. -/
abbrev Text := List Char

/-- A name of an entry of a directory. -/
def validName (cs : Text) : Bool := cs ≠ [] && '/' ∉ cs && cs ≠ ['.'] && cs ≠ ['.', '.']

/-- A file name. -/
abbrev Name := { cs : Text // validName cs = true }

/-- A path from the root. -/
abbrev Path := List Name

/-- A name in a directory. -/
abbrev Place := Loc Name

/-- The files of a machine, by path. -/
abbrev FileSystem := Tree Name Text

/-- `EXT_RES_DIR_PARENT`. -/
def extResDirParent : Place := ⟨[], ⟨['d', 'a', 't', 'a'], by decide⟩⟩
/-- `EXT_RES_DIR`. -/
def extResDir : Place := ⟨extResDirParent.path, ⟨['s', 't', 'o', 'r', 'e'], by decide⟩⟩

/-- `EXT_RES_DIR_INNER` in the temporary directory. -/
def extResDirInner (tmpDir : Path) : Place :=
  ⟨tmpDir, ⟨['e', 'x', 't', '_', 'r', 'e', 's', '_', 'd', 'i', 'r'], by decide⟩⟩
/-- `FD_INDEX_NAME` in the temporary directory. -/
def fdIndexPath (tmpDir : Path) : Place :=
  ⟨tmpDir, ⟨['f', 'd', '_', 'i', 'n', 'd', 'e', 'x', '.', 't', 'x', 't'], by decide⟩⟩
/-- `FD_STORE_DIR_INNER` in the temporary directory. -/
def fdDir (tmpDir : Path) : Place := ⟨tmpDir, ⟨['f', 'd', '_', 'd', 'i', 'r'], by decide⟩⟩

/-- `readlines`, each line stripped of its newline. -/
def readlines (text : Text) : List Text :=
  let lines := text.splitOn '\n'
  if lines.getLast? = some [] then lines.dropLast else lines

/-- A piece between slashes, as a name. -/
def toName (cs : Text) : Option Name := if h : validName cs = true then some ⟨cs, h⟩ else none

/-- The place an absolute path names.  A line that is none (what follows a newline in a
name) names nothing. -/
def parsePath (line : Text) : Option Place :=
  match line.splitOn '/' with
  | [] :: pieces =>
      match pieces.reverse with
      | last :: dirs => do return ⟨(← dirs.mapM toName).reverse, ← toName last⟩
      | [] => none
  | _ => none

/-- An absolute path in full. -/
def pathText (p : Path) : Text := p.flatMap fun x => '/' :: x.1

/-- An open descriptor: where its link in `/proc` points, and whether it is a regular
file. -/
structure Fd where
  origPath : Text
  isReg : Bool

/-- What `generate_fd_index` writes. -/
def indexText (fds : List Fd) : Text :=
  (fds.filter Fd.isReg).flatMap fun fd => fd.origPath ++ ['\n']

/-- `generate_fd_index`; none where it returns -1. -/
def generateFdIndex (t : FileSystem) (tmpDir : Path) (aimPid : Int) (fds : List Fd) : Option FileSystem :=
  if aimPid = -1 then none else t.write (fdIndexPath tmpDir) (indexText fds)

/-- The places listed in an index. -/
def listed (text : Text) : List Place := (readlines text).filterMap parsePath

/-! ## §2. `shutil`. -/

/-- `shutil.copyfile`. -/
def copyfile (t : FileSystem) (src : Path) (dst : Place) : Option FileSystem :=
  if src = dst.path then none
  else do t.write dst (← t.read src)

/-- `shutil.copy`. -/
def copy (t : FileSystem) (src dst : Place) : Option FileSystem :=
  if t.isDir dst.path then copyfile t src.path ⟨dst.path, src.name⟩ else copyfile t src.path dst

/-- `shutil.copytree`, into a directory that is there. -/
def copytree (t : FileSystem) (src dst : Place) : Option FileSystem :=
  if h : t.isDir dst.dir = true ∧ t.isDir src.path = true ∧ (t.node dst.path).isNone
      ∧ ¬ src.path <+: dst.path then some (t.graft dst t src.path h.1)
  else none

/-- `shutil.rmtree`. -/
def rmtree (t : FileSystem) (l : Place) : Option FileSystem :=
  if t.isDir l.path then some (t.prune l) else none

/-- Where `shutil.move` puts a directory. -/
def moveTarget (t : FileSystem) (src dst : Place) : Place :=
  if t.isDir dst.path then ⟨dst.path, src.name⟩ else dst

/-- `shutil.move` of a directory. -/
def move (t : FileSystem) (src dst : Place) : Option FileSystem :=
  let real := moveTarget t src dst
  if h : t.isDir real.dir = true ∧ t.isDir src.path = true ∧ (t.node real.path).isNone
      ∧ ¬ src.path <+: real.path then some ((t.graft real t src.path h.1).prune src)
  else none

/-! ## §3. Packing and unpacking. -/

/-- One line of the loop in `pack_ext_res`. -/
def packLine (tmpDir : Path) (t : FileSystem) (item : Text) : Option FileSystem := do
  copy t (← parsePath item) (fdDir tmpDir)

/-- `pack_ext_res`; none where it returns -1 or raises. -/
def packExtRes (t : FileSystem) (tmpDir : Path) : Option FileSystem := do
  let t ← t.mkdir (fdDir tmpDir)
  let text ← t.read (fdIndexPath tmpDir).path
  let t ← (readlines text).foldlM (packLine tmpDir) t
  if t.isDir extResDir.path then copytree t extResDir (extResDirInner tmpDir) else some t

/-- One line of the loop in `unpack_ext_res`: a copy that fails is passed over. -/
def unpackLine (tmpDir : Path) (t : FileSystem) (item : Text) : FileSystem :=
  match parsePath item with
  | some l => (copyfile t ((fdDir tmpDir).path ++ [l.name]) l).getD t
  | none => t

/-- The second half of `unpack_ext_res`. -/
def replaceExtRes (t : FileSystem) (tmpDir : Path) : FileSystem × Int :=
  match rmtree t extResDir with
  | none => (t, -1)
  | some t =>
      if t.isDir (extResDirInner tmpDir).path then
        match move t (extResDirInner tmpDir) extResDirParent with
        | none => (t, -1)
        | some t => (t, 0)
      else (t, -1)

/-- `unpack_ext_res`: the file system it leaves and what it returns. -/
def unpackExtRes (t : FileSystem) (tmpDir : Path) : FileSystem × Int :=
  match t.read (fdIndexPath tmpDir).path with
  | none => (t, -1)
  | some text => replaceExtRes ((readlines text).foldl (unpackLine tmpDir) t) tmpDir

/-- The archive of directory `src` of `packed` is extracted into the new temporary
directory `tmp`. -/
def extract (t : FileSystem) (tmp : Place) (packed : FileSystem) (src : Path) : Option FileSystem :=
  if h : t.isDir tmp.dir = true then some (t.graft tmp packed src h) else none

/-! ## §4. What the index lists. -/

/-- Joining lines of which the last is empty is ending each of them. -/
theorem intercalate_terminated (x : Char) (ls : List Text) :
    [x].intercalate (ls ++ [[]]) = ls.flatMap fun l => l ++ [x] := by
  induction ls with
  | nil => exact List.intercalate_singleton
  | cons l ls ih =>
      rw [List.cons_append, List.intercalate_cons_of_ne_nil (by simp), ih, List.flatMap_cons]

/-- Lines written one by one are read back. -/
theorem readlines_terminated {ls : List Text} (h : ∀ l ∈ ls, '\n' ∉ l) :
    readlines (ls.flatMap fun l => l ++ ['\n']) = ls := by
  have hno : ∀ l ∈ ls ++ [[]], '\n' ∉ l := by
    intro l hl
    rcases List.mem_append.mp hl with hl | hl
    · exact h l hl
    · rw [List.mem_singleton.mp hl]
      exact List.not_mem_nil
  have hsplit := List.splitOn_intercalate '\n' hno (by simp)
  rw [intercalate_terminated] at hsplit
  unfold readlines
  dsimp only
  rw [hsplit, List.getLast?_concat, if_pos rfl, List.dropLast_concat]

/-- A name is read back as itself. -/
theorem toName_val (x : Name) : toName x.1 = some x := dif_pos x.2

/-- And so is a path. -/
theorem mapM_toName (p : Path) : (p.map Subtype.val).mapM toName = some p := by
  have hname : toName ∘ Subtype.val = fun x : Name => pure (id x) := funext toName_val
  rw [List.mapM_map, hname, List.mapM_pure, List.map_id]
  rfl

theorem intercalate_path (cs : Text) (p : Path) :
    ['/'].intercalate (cs :: p.map Subtype.val) = cs ++ pathText p := by
  induction p generalizing cs with
  | nil => exact List.intercalate_singleton.trans (List.append_nil cs).symm
  | cons x p ih =>
      rw [List.map_cons, List.intercalate_cons_cons, ih, List.append_assoc]
      rfl

/-- A path that is written out is read back as itself. -/
theorem parsePath_pathText (l : Place) : parsePath (pathText l.path) = some l := by
  have hno : ∀ cs ∈ [] :: l.path.map Subtype.val, '/' ∉ cs := by
    intro cs hcs
    rcases List.mem_cons.mp hcs with rfl | hcs
    · exact List.not_mem_nil
    · obtain ⟨x, -, rfl⟩ := List.mem_map.mp hcs
      have hx := x.2
      simp only [validName, Bool.and_eq_true, decide_eq_true_eq] at hx
      exact hx.1.1.2
  have hsplit := List.splitOn_intercalate '/' hno (by simp)
  rw [intercalate_path, List.nil_append] at hsplit
  have hrev : (l.path.map Subtype.val).reverse = l.name.1 :: l.dir.reverse.map Subtype.val := by
    simp [Loc.path]
  unfold parsePath
  rw [hsplit]
  dsimp only
  rw [hrev]
  dsimp only
  rw [mapM_toName, toName_val]
  show some (Loc.mk l.dir.reverse.reverse l.name) = some l
  rw [List.reverse_reverse]

/-- An index of open regular files, none with a newline in its path, is read back. -/
theorem listed_indexText {fds : List Fd} {ls : List Place}
    (h : (fds.filter Fd.isReg).map Fd.origPath = ls.map fun l => pathText l.path)
    (hline : ∀ l ∈ ls, '\n' ∉ pathText l.path) : listed (indexText fds) = ls := by
  have htext : indexText fds = (ls.map fun l => pathText l.path).flatMap fun line => line ++ ['\n'] := by
    rw [← h, List.flatMap_map]
    rfl
  have hno : ∀ line ∈ ls.map fun l => pathText l.path, '\n' ∉ line := by
    intro line hmem
    obtain ⟨l, hl, rfl⟩ := List.mem_map.mp hmem
    exact hline l hl
  unfold listed
  rw [htext, readlines_terminated hno, List.filterMap_map]
  have hparse : (parsePath ∘ fun l : Place => pathText l.path) = some := funext parsePath_pathText
  rw [hparse, List.filterMap_some]

/-! ## §5. What a successful packing has stored. -/

/-- The last of the places with this name. -/
def lastNamed (ls : List Place) (x : Name) : Option Place := (ls.filter fun l => l.name = x).getLast?

/-- The last of the files with a name, one file further. -/
theorem lastNamed_concat (ls : List Place) (l : Place) (x : Name) :
    lastNamed (ls ++ [l]) x = if l.name = x then some l else lastNamed ls x := by
  unfold lastNamed
  rw [List.filter_append]
  by_cases h : l.name = x
  · rw [if_pos h, List.filter_cons_of_pos (by simpa using h), List.filter_nil, List.getLast?_concat]
  · rw [if_neg h, List.filter_cons_of_neg (by simpa using h), List.filter_nil, List.append_nil]

/-- Every name of the list has a last file. -/
theorem lastNamed_isSome {ls : List Place} {l : Place} (h : l ∈ ls) :
    ∃ m ∈ ls, lastNamed ls l.name = some m := by
  have hmem : l ∈ ls.filter fun m => m.name = l.name := List.mem_filter.mpr ⟨h, by simp⟩
  cases hlast : lastNamed ls l.name with
  | none =>
      rw [List.getLast?_eq_none_iff.mp hlast] at hmem
      exact (List.not_mem_nil hmem).elim
  | some m => exact ⟨m, (List.mem_filter.mp (List.mem_of_getLast? hlast)).1, rfl⟩

section Pack
variable {t t' base : FileSystem} {tmpDir : Path} {l : Place}

/-- What `copyfile` does, when it succeeds. -/
theorem copyfile_eq_some {src : Path} {dst : Place} (h : copyfile t src dst = some t') :
    src ≠ dst.path ∧ ∃ c, t.read src = some c ∧ t.write dst c = some t' := by
  unfold copyfile at h
  split at h
  · cases h
  next hne =>
    obtain ⟨c, hc, hwrite⟩ := Option.bind_eq_some_iff.mp h
    exact ⟨hne, c, hc, hwrite⟩

/-- An entry of `fd_dir`. -/
def fdEntry (tmpDir : Path) (x : Name) : Place := ⟨(fdDir tmpDir).path, x⟩

theorem fdEntry_path (tmpDir : Path) (x : Name) :
    (fdEntry tmpDir x).path = tmpDir ++ [(fdDir []).name, x] := List.append_assoc tmpDir [_] [x]

/-- The loop of `pack_ext_res` has stored the files of `done`. -/
structure Packing (base : FileSystem) (tmpDir : Path) (done : List Place) (t : FileSystem) : Prop where
  kept : ∀ q, (∀ x, q ≠ (fdEntry tmpDir x).path) → t.node q = base.node q
  stored : ∀ x, t.read (fdEntry tmpDir x).path = (lastNamed done x).bind fun l => base.read l.path
  files : ∀ l ∈ done, ∃ c, base.read l.path = some c

theorem fdDir_above (tmpDir : Path) : tmpDir <+: (fdDir tmpDir).path := List.prefix_append ..

/-- The copies are in the temporary directory. -/
theorem fdEntry_above (tmpDir : Path) (x : Name) : tmpDir <+: (fdEntry tmpDir x).path :=
  (fdDir_above tmpDir).trans (List.prefix_append ..)

/-- Nothing outside the temporary directory is a copy. -/
theorem fdEntry_ne {q : Path} (h : ¬ tmpDir <+: q) (x : Name) : q ≠ (fdEntry tmpDir x).path := by
  rintro rfl
  exact h (fdEntry_above tmpDir x)

/-- A new `fd_dir` is empty. -/
theorem Packing.start {t₀ : FileSystem} (hmk : t₀.mkdir (fdDir tmpDir) = some base) :
    Packing base tmpDir [] base := by
  obtain ⟨-, hnone, hbase⟩ := Tree.mkdir_eq_some hmk
  refine ⟨fun _ _ => rfl, fun x => ?_, fun _ hl => (List.not_mem_nil hl).elim⟩
  have hne := (fdEntry tmpDir x).dir_ne_path
  have hbelow : t₀.node (fdEntry tmpDir x).path = none :=
    Tree.node_of_not_isDir (p := (fdDir tmpDir).path) (List.prefix_append ..) hne
      (Tree.isDir_of_none hnone)
  have hempty : base.node (fdEntry tmpDir x).path = none := (hbase _).trans ((if_neg hne.symm).trans hbelow)
  unfold Tree.read
  rw [hempty]
  rfl

/-- One file is copied. -/
theorem Packing.copy {done : List Place} (h : Packing base tmpDir done t)
    (hdir : base.isDir (fdDir tmpDir).path = true) (hl : ¬ tmpDir <+: l.path)
    (hcopy : copy t l (fdDir tmpDir) = some t') : Packing base tmpDir (done ++ [l]) t' := by
  have hself : ∀ x, (fdDir tmpDir).path ≠ (fdEntry tmpDir x).path := fun x =>
    (fdEntry tmpDir x).dir_ne_path
  unfold Checkpoint.copy at hcopy
  rw [if_pos (by rw [Tree.isDir_congr (h.kept _ hself)]; exact hdir)] at hcopy
  obtain ⟨-, c, hc, hwrite⟩ := copyfile_eq_some hcopy
  obtain ⟨-, -, hnode⟩ := Tree.write_eq_some hwrite
  have hbase : base.read l.path = some c := by
    rw [← Tree.read_congr (h.kept _ (fdEntry_ne hl))]
    exact hc
  constructor
  case kept =>
    intro q hq
    exact ((hnode q).trans (if_neg (hq l.name))).trans (h.kept q hq)
  case stored =>
    intro x
    rw [lastNamed_concat]
    by_cases hx : l.name = x
    · -- whatever was stored under this name is overwritten
      subst hx
      rw [if_pos rfl]
      show t'.read (fdEntry tmpDir l.name).path = base.read l.path
      rw [hbase]
      exact Tree.read_eq_some.mpr ((hnode _).trans (if_pos rfl))
    · have hne : (fdEntry tmpDir x).path ≠ (fdEntry tmpDir l.name).path := fun heq =>
        hx (congrArg Loc.name (Loc.path_inj heq)).symm
      rw [if_neg hx, ← h.stored x]
      exact Tree.read_congr ((hnode _).trans (if_neg hne))
  case files =>
    intro m hm
    rcases List.mem_append.mp hm with hm | hm
    · exact h.files m hm
    · rw [List.mem_singleton.mp hm]
      exact ⟨c, hbase⟩

/-- All lines are copied; by induction on the lines to come. -/
theorem Packing.lines {done : List Place} {lines : List Text} (h : Packing base tmpDir done t)
    (hdir : base.isDir (fdDir tmpDir).path = true)
    (hl : ∀ l ∈ lines.filterMap parsePath, ¬ tmpDir <+: l.path)
    (hfold : lines.foldlM (packLine tmpDir) t = some t') :
    Packing base tmpDir (done ++ lines.filterMap parsePath) t' := by
  induction lines generalizing done t with
  | nil =>
      cases hfold
      rw [List.filterMap_nil, List.append_nil]
      exact h
  | cons line lines ih =>
      rw [List.foldlM_cons] at hfold
      obtain ⟨u, hline, hrest⟩ := Option.bind_eq_some_iff.mp hfold
      obtain ⟨l, hparse, hcopy⟩ := Option.bind_eq_some_iff.mp hline
      rw [List.filterMap_cons_some hparse] at hl ⊢
      have hu := h.copy hdir (hl l List.mem_cons_self) hcopy
      have := ih hu (fun m hm => hl m (List.mem_cons_of_mem _ hm)) hrest
      rwa [List.append_assoc] at this

end Pack

/-- The files listed in `fd_index.txt`. -/
def indexedFiles (t : FileSystem) (tmpDir : Path) : List Place :=
  match t.read (fdIndexPath tmpDir).path with
  | some text => listed text
  | none => []

/-- **The index lists the open regular files**, if no name has a newline in it. -/
theorem indexedFiles_generate {t t' : FileSystem} {tmpDir : Path} {aimPid : Int} {fds : List Fd}
    {ls : List Place} (hgen : generateFdIndex t tmpDir aimPid fds = some t')
    (hreg : (fds.filter Fd.isReg).map Fd.origPath = ls.map fun l => pathText l.path)
    (hline : ∀ l ∈ ls, '\n' ∉ pathText l.path) : indexedFiles t' tmpDir = ls := by
  unfold generateFdIndex at hgen
  split at hgen
  · cases hgen
  · obtain ⟨-, -, hnode⟩ := Tree.write_eq_some hgen
    have hread : t'.read (fdIndexPath tmpDir).path = some (indexText fds) :=
      Tree.read_eq_some.mpr ((hnode _).trans (if_pos rfl))
    unfold indexedFiles
    rw [hread]
    exact listed_indexText hreg hline

/-- A directory of `mkdtemp`: neither the tree nor a listed file is in it, and it is not
in the tree. -/
structure TempDir (tmpDir : Path) (files : List Place) : Prop where
  store : ¬ tmpDir <+: extResDir.path
  outside : ¬ extResDir.path <+: tmpDir
  files : ∀ l ∈ files, ¬ tmpDir <+: l.path

/-- What a successful packing leaves in the temporary directory. -/
structure Packed (t₀ packed : FileSystem) (tmpDir : Path) : Prop where
  index : indexedFiles packed tmpDir = indexedFiles t₀ tmpDir
    ∧ ∃ text, packed.read (fdIndexPath tmpDir).path = some text
  stored : ∀ x, packed.read (fdEntry tmpDir x).path
    = (lastNamed (indexedFiles t₀ tmpDir) x).bind fun l => t₀.read l.path
  files : ∀ l ∈ indexedFiles t₀ tmpDir, ∃ c, t₀.read l.path = some c
  inner : t₀.isDir extResDir.path = false → packed.node (extResDirInner tmpDir).path = none

section PackedTree
variable {t₀ t packed : FileSystem} {tmpDir : Path}

theorem fdIndexPath_ne (tmpDir : Path) : fdIndexPath tmpDir ≠ fdDir tmpDir := by
  simp [fdIndexPath, fdDir]

theorem extResDirInner_ne (tmpDir : Path) : extResDirInner tmpDir ≠ fdDir tmpDir := by
  simp [extResDirInner, fdDir]

/-- An entry of the temporary directory is no entry of `fd_dir`. -/
theorem ne_fdEntry {l : Place} (hl : l.dir = tmpDir) (x : Name) : l.path ≠ (fdEntry tmpDir x).path := by
  intro h
  have hdir := congrArg Loc.dir (Loc.path_inj h)
  rw [hl] at hdir
  exact (fdDir tmpDir).dir_ne_path hdir

/-- The files listed depend on the index only. -/
theorem indexedFiles_eq (h : t.node (fdIndexPath tmpDir).path = t₀.node (fdIndexPath tmpDir).path) :
    indexedFiles t tmpDir = indexedFiles t₀ tmpDir := by
  unfold indexedFiles
  rw [Tree.read_congr h]

/-- The copies of the loop, seen from the file system before the packing. -/
theorem Packing.ofFresh {base : FileSystem} (h : Packing base tmpDir (indexedFiles t₀ tmpDir) t)
    (hmk : t₀.mkdir (fdDir tmpDir) = some base) (htmp : TempDir tmpDir (indexedFiles t₀ tmpDir)) :
    (∀ l : Place, l.dir = tmpDir → l ≠ fdDir tmpDir → t.node l.path = t₀.node l.path)
    ∧ (∀ q, ¬ tmpDir <+: q → t.node q = t₀.node q)
    ∧ (∀ x, t.read (fdEntry tmpDir x).path
      = (lastNamed (indexedFiles t₀ tmpDir) x).bind fun l => t₀.read l.path)
    ∧ ∀ l ∈ indexedFiles t₀ tmpDir, ∃ c, t₀.read l.path = some c := by
  obtain ⟨-, -, hbase⟩ := Tree.mkdir_eq_some hmk
  have hout : ∀ q, ¬ tmpDir <+: q → base.node q = t₀.node q := fun q hq =>
    (hbase q).trans (if_neg fun heq => hq (by rw [heq]; exact fdDir_above tmpDir))
  have hread : ∀ l ∈ indexedFiles t₀ tmpDir, base.read l.path = t₀.read l.path := fun l hl =>
    Tree.read_congr (hout _ (htmp.files l hl))
  refine ⟨fun l hl hne => ?_, fun q hq => (h.kept q (fdEntry_ne hq)).trans (hout q hq), fun x => ?_,
    fun l hl => ?_⟩
  · exact (h.kept _ (ne_fdEntry hl)).trans ((hbase _).trans (if_neg fun heq => hne (Loc.path_inj heq)))
  · rw [h.stored x]
    cases hlast : lastNamed (indexedFiles t₀ tmpDir) x with
    | none => rfl
    | some l => exact hread l (List.mem_filter.mp (List.mem_of_getLast? hlast)).1
  · rw [← hread l hl]
    exact h.files l hl

/-- The tree is copied beside what the loop has stored. -/
theorem packTree_beside (h : (if t.isDir extResDir.path = true
      then copytree t extResDir (extResDirInner tmpDir) else some t) = some packed) {q : Path}
    (hq : ¬ (extResDirInner tmpDir).path <+: q) : packed.node q = t.node q := by
  split at h
  · unfold copytree at h
    split at h
    · cases h
      exact Tree.graft_elsewhere _ hq
    · cases h
  · cases h
    rfl

/-- **Packing**: each name of `fd_dir` has the content of the last listed file of that
name, and `ext_res_dir` is there only if there was a tree to pack. -/
theorem packed_of_packExtRes (h : packExtRes t₀ tmpDir = some packed)
    (htmp : TempDir tmpDir (indexedFiles t₀ tmpDir)) (hnew : t₀.node (extResDirInner tmpDir).path = none) :
    Packed t₀ packed tmpDir := by
  obtain ⟨base, hmk, h⟩ := Option.bind_eq_some_iff.mp h
  obtain ⟨text, htext, h⟩ := Option.bind_eq_some_iff.mp h
  obtain ⟨t, hfold, h⟩ := Option.bind_eq_some_iff.mp h
  obtain ⟨-, -, hbase⟩ := Tree.mkdir_eq_some hmk
  have hdir : base.isDir (fdDir tmpDir).path = true := Tree.isDir_iff.mpr ((hbase _).trans (if_pos rfl))
  have hindex : t₀.read (fdIndexPath tmpDir).path = some text := by
    rw [← htext]
    refine (Tree.read_congr ((hbase _).trans (if_neg fun heq => ?_))).symm
    exact fdIndexPath_ne tmpDir (Loc.path_inj heq)
  have hfiles : indexedFiles t₀ tmpDir = listed text := by
    unfold indexedFiles
    rw [hindex]
  have hpacking := (Packing.start hmk).lines hdir (by rw [← listed, ← hfiles]; exact htmp.files) hfold
  rw [List.nil_append, ← listed, ← hfiles] at hpacking
  obtain ⟨hentry, hout, hstored, hread⟩ := hpacking.ofFresh hmk htmp
  have hnotIndex : ¬ (extResDirInner tmpDir).path <+: (fdIndexPath tmpDir).path :=
    Loc.not_above_sibling rfl (by simp [extResDirInner, fdIndexPath])
  have hnotEntry : ∀ x, ¬ (extResDirInner tmpDir).path <+: (fdEntry tmpDir x).path := by
    intro x habove
    rcases Loc.above_iff.mp habove with heq | habove
    · exact ne_fdEntry rfl x heq
    · exact Loc.not_above_sibling (l := extResDirInner tmpDir) (m := fdDir tmpDir) rfl
        (extResDirInner_ne tmpDir) habove
  have hidx := (packTree_beside h hnotIndex).trans (hentry (fdIndexPath tmpDir) rfl (fdIndexPath_ne tmpDir))
  constructor
  case index => exact ⟨indexedFiles_eq hidx, text, (Tree.read_congr hidx).trans hindex⟩
  case stored =>
    intro x
    rw [← hstored x]
    exact Tree.read_congr (packTree_beside h (hnotEntry x))
  case files => exact hread
  case inner =>
    -- no tree, no `copytree`
    intro hno
    rw [if_neg (by rw [Tree.isDir_congr (hout _ htmp.store), hno]; decide)] at h
    cases h
    rw [hentry (extResDirInner tmpDir) rfl (extResDirInner_ne tmpDir)]
    exact hnew

end PackedTree

/-! ## §6. What unpacking restores. -/

section Unpack
variable {e t t' : FileSystem} {tmpDir : Path} {l : Place} {done : List Place}

/-- There is a directory to put the file in, and none in its place. -/
def HasPlace (t : FileSystem) (l : Place) : Prop := t.isDir l.dir = true ∧ t.isDir l.path = false

instance (t : FileSystem) (l : Place) : Decidable (HasPlace t l) := inferInstanceAs (Decidable (_ ∧ _))

/-- The loop of `unpack_ext_res` has gone over the files of `done`, from `e` on. -/
structure Restoring (e : FileSystem) (tmpDir : Path) (done : List Place) (t : FileSystem) : Prop where
  hit : ∀ l ∈ done, HasPlace e l → t.node l.path = e.node (fdEntry tmpDir l.name).path
  miss : ∀ q, (∀ l ∈ done, l.path = q → ¬ HasPlace e l) → t.node q = e.node q

/-- Directories neither come nor go. -/
theorem Restoring.isDir_eq (h : Restoring e tmpDir done t)
    (hfile : ∀ l ∈ done, ∃ c, e.read (fdEntry tmpDir l.name).path = some c) (q : Path) :
    t.isDir q = e.isDir q := by
  by_cases hex : ∃ l ∈ done, l.path = q ∧ HasPlace e l
  · obtain ⟨l, hl, rfl, hplace⟩ := hex
    obtain ⟨c, hc⟩ := hfile l hl
    rw [hplace.2]
    exact Tree.isDir_of_read ((Tree.read_congr (h.hit l hl hplace)).trans hc)
  · refine Tree.isDir_congr (h.miss q fun l hl heq hplace => ?_)
    exact hex ⟨l, hl, heq, hplace⟩

/-- One file is restored, or passed over. -/
theorem Restoring.copyfile (h : Restoring e tmpDir done t)
    (hfile : ∀ m ∈ done ++ [l], ∃ c, e.read (fdEntry tmpDir m.name).path = some c)
    (hout : ∀ m ∈ done ++ [l], ¬ tmpDir <+: m.path) :
    Restoring e tmpDir (done ++ [l])
      ((copyfile t (fdEntry tmpDir l.name).path l).getD t) := by
  have hmem : l ∈ done ++ [l] := List.mem_append_right _ (List.mem_singleton.mpr rfl)
  have hold : ∀ m ∈ done, m ∈ done ++ [l] := fun m hm => List.mem_append_left _ hm
  have hdirs := h.isDir_eq fun m hm => hfile m (hold m hm)
  obtain ⟨c, hc⟩ := hfile l hmem
  have hsrc : t.read (fdEntry tmpDir l.name).path = some c := by
    rw [← hc]
    exact Tree.read_congr (h.miss _ fun m hm heq => absurd heq (fdEntry_ne (hout m (hold m hm)) _))
  have hne : (fdEntry tmpDir l.name).path ≠ l.path := (fdEntry_ne (hout l hmem) _).symm
  have hcopy : Checkpoint.copyfile t (fdEntry tmpDir l.name).path l = t.write l c := by
    unfold Checkpoint.copyfile
    rw [if_neg hne, hsrc]
    rfl
  rw [hcopy]
  -- without a place `copyfile` raises, and the loop goes on with the next line
  by_cases hplace : HasPlace e l
  · obtain ⟨t', ht'⟩ := Tree.write_of_place (t := t) c (by rw [hdirs]; exact hplace.1)
      (by rw [hdirs]; exact hplace.2)
    obtain ⟨-, -, hnode⟩ := Tree.write_eq_some ht'
    rw [ht', Option.getD_some]
    constructor
    case hit =>
      intro m hm hmplace
      rw [hnode]
      by_cases hml : m.path = l.path
      · rw [if_pos hml, Loc.path_inj hml]
        exact (Tree.read_eq_some.mp hc).symm
      · rw [if_neg hml]
        rcases List.mem_append.mp hm with hm | hm
        · exact h.hit m hm hmplace
        · exact absurd (congrArg Loc.path (List.mem_singleton.mp hm)) hml
    case miss =>
      intro q hq
      rw [hnode, if_neg fun heq => hq l hmem heq.symm hplace]
      exact h.miss q fun m hm => hq m (hold m hm)
  · rw [Tree.write_eq_none (by rw [hdirs, hdirs]; exact hplace), Option.getD_none]
    constructor
    case hit =>
      intro m hm hmplace
      rcases List.mem_append.mp hm with hm | hm
      · exact h.hit m hm hmplace
      · rw [List.mem_singleton.mp hm] at hmplace
        exact absurd hmplace hplace
    case miss => exact fun q hq => h.miss q fun m hm => hq m (hold m hm)

/-- All lines; by induction on the lines to come. -/
theorem Restoring.lines (lines : List Text) (h : Restoring e tmpDir done t)
    (hfile : ∀ m ∈ done ++ lines.filterMap parsePath,
      ∃ c, e.read (fdEntry tmpDir m.name).path = some c)
    (hout : ∀ m ∈ done ++ lines.filterMap parsePath, ¬ tmpDir <+: m.path) :
    Restoring e tmpDir (done ++ lines.filterMap parsePath) (lines.foldl (unpackLine tmpDir) t) := by
  induction lines generalizing done t with
  | nil =>
      rw [List.filterMap_nil, List.append_nil]
      exact h
  | cons line lines ih =>
      rw [List.foldl_cons]
      cases hparse : parsePath line with
      | none =>
          have hline : unpackLine tmpDir t line = t := by
            unfold unpackLine
            rw [hparse]
          rw [List.filterMap_cons_none hparse] at hfile hout ⊢
          rw [hline]
          exact ih h hfile hout
      | some l =>
          have hline : unpackLine tmpDir t line
              = (Checkpoint.copyfile t (fdEntry tmpDir l.name).path l).getD t := by
            unfold unpackLine
            rw [hparse]
            rfl
          have hsplit : done ++ l :: lines.filterMap parsePath
              = (done ++ [l]) ++ lines.filterMap parsePath := by
            rw [List.append_assoc]
            rfl
          rw [List.filterMap_cons_some hparse, hsplit] at hfile hout ⊢
          rw [hline]
          exact ih (h.copyfile (fun m hm => hfile m (List.mem_append_left _ hm))
            fun m hm => hout m (List.mem_append_left _ hm)) hfile hout

end Unpack

/-! ## §7. The tree. -/

section Store
variable {t : FileSystem} {tmpDir : Path}

/-- Moved into the parent, `ext_res_dir` is not where it was packed from. -/
theorem move_isDir {t' : FileSystem} (hout : ¬ tmpDir <+: extResDir.path)
    (hparent : t.isDir extResDirParent.path = true) (hno : t.node extResDir.path = none)
    (hmove : move t (extResDirInner tmpDir) extResDirParent = some t') :
    t'.isDir extResDir.path = false := by
  have htarget : moveTarget t (extResDirInner tmpDir) extResDirParent
      = ⟨extResDirParent.path, (extResDirInner tmpDir).name⟩ := if_pos hparent
  have hbeside : ¬ (Loc.mk extResDirParent.path (extResDirInner tmpDir).name).path <+: extResDir.path :=
    Loc.not_above_sibling rfl (by simp [extResDirInner, extResDir])
  have hinner : ¬ (extResDirInner tmpDir).path <+: extResDir.path := fun h =>
    hout ((List.prefix_append ..).trans h)
  unfold move at hmove
  dsimp only at hmove
  split at hmove
  · cases hmove
    refine Tree.isDir_of_none ?_
    rw [Tree.prune_elsewhere hinner, Tree.graft_elsewhere _ (by rw [htarget]; exact hbeside)]
    exact hno
  · cases hmove

/-- **After the replacement there is no directory `/data/store/`**, whatever there was
before and whatever was packed. -/
theorem replaceExtRes_isDir (hout : ¬ tmpDir <+: extResDir.path) :
    (replaceExtRes t tmpDir).1.isDir extResDir.path = false := by
  by_cases hdir : t.isDir extResDir.path = true
  · have hpruned : (t.prune extResDir).node extResDir.path = none := Tree.prune_below List.prefix_rfl
    have hparent : (t.prune extResDir).isDir extResDirParent.path = true := by
      show (t.prune extResDir).isDir extResDir.dir = true
      rw [Tree.isDir_congr (Tree.prune_elsewhere extResDir.not_above_dir)]
      refine Tree.isDir_dir (l := extResDir) ?_
      rw [Tree.isDir_iff.mp hdir]
      nofun
    unfold replaceExtRes rmtree
    rw [if_pos hdir]
    dsimp only
    split
    · split
      next => exact Tree.isDir_of_none hpruned
      next hmove => exact move_isDir hout hparent hpruned hmove
    · exact Tree.isDir_of_none hpruned
  · unfold replaceExtRes rmtree
    rw [if_neg hdir]
    exact (Bool.not_eq_true _).mp hdir

/-- Without a packed tree the old one is removed, if there is one. -/
theorem replaceExtRes_of_noInner (h : t.isDir (extResDirInner tmpDir).path = false) :
    (replaceExtRes t tmpDir).1 = if t.isDir extResDir.path then t.prune extResDir else t := by
  unfold replaceExtRes rmtree
  by_cases hdir : t.isDir extResDir.path = true
  · have hinner : (t.prune extResDir).isDir (extResDirInner tmpDir).path = false := by
      by_cases habove : extResDir.path <+: (extResDirInner tmpDir).path
      · exact Tree.isDir_of_none (Tree.prune_below habove)
      · rw [Tree.isDir_congr (Tree.prune_elsewhere habove)]
        exact h
    rw [if_pos hdir, if_pos hdir]
    dsimp only
    rw [if_neg (by rw [hinner]; decide)]
  · rw [if_neg hdir, if_neg hdir]

end Store

/-! ## §8. The round trip. -/

/-- Every listed file and the tree `/data/store/` are in `t₂` as in `t₀`. -/
structure RoundTrips (t₀ t₂ : FileSystem) (files : List Place) : Prop where
  files : ∀ l ∈ files, t₂.read l.path = t₀.read l.path
  tree : t₂.under extResDir.path = t₀.under extResDir.path

/-- There was no tree, files of one name have one content, and each file has a place on
the machine it is restored on. -/
structure Restorable (t₀ t₁ : FileSystem) (files : List Place) : Prop where
  noTree : t₀.isDir extResDir.path = false
  content : ∀ l ∈ files, ((lastNamed files l.name).bind fun m => t₀.read m.path) = t₀.read l.path
  place : ∀ l ∈ files, HasPlace t₁ l

section RoundTrip
variable {t₀ t₁ e packed : FileSystem} {tmp₀ : Path} {tmp₁ : Place}

/-- The extracted archive. -/
theorem extract_node (h : extract t₁ tmp₁ packed tmp₀ = some e) :
    (∀ r, e.node (tmp₁.path ++ r) = packed.node (tmp₀ ++ r))
    ∧ ∀ q, ¬ tmp₁.path <+: q → e.node q = t₁.node q := by
  unfold extract at h
  split at h
  · cases h
    exact ⟨fun r => Tree.graft_below _ r, fun q hq => Tree.graft_elsewhere _ hq⟩
  · cases h

/-- What the loop of `unpack_ext_res` leaves, seen from the two machines. -/
theorem restored (hpacked : Packed t₀ packed tmp₀) (hextract : extract t₁ tmp₁ packed tmp₀ = some e)
    (htmp : TempDir tmp₁.path (indexedFiles t₀ tmp₀)) : ∃ t,
    unpackExtRes e tmp₁.path = replaceExtRes t tmp₁.path
    ∧ (∀ q, t.isDir q = e.isDir q)
    ∧ ∀ l ∈ indexedFiles t₀ tmp₀, (HasPlace t₁ l → t.read l.path
        = (lastNamed (indexedFiles t₀ tmp₀) l.name).bind fun m => t₀.read m.path)
      ∧ (¬ HasPlace t₁ l → t.read l.path = none) := by
  obtain ⟨hin, hout⟩ := extract_node hextract
  obtain ⟨hindex, text, htext⟩ := hpacked.index
  have hfiles : indexedFiles t₀ tmp₀ = listed text := by
    rw [← hindex]
    unfold indexedFiles
    rw [htext]
  have hread : e.read (fdIndexPath tmp₁.path).path = some text :=
    (Tree.read_congr (hin [(fdIndexPath tmp₁.path).name])).trans htext
  have hentry : ∀ x, e.read (fdEntry tmp₁.path x).path = packed.read (fdEntry tmp₀ x).path := by
    intro x
    refine Tree.read_congr ?_
    rw [fdEntry_path, fdEntry_path]
    exact hin _
  have hfile : ∀ l ∈ indexedFiles t₀ tmp₀, ∃ c, e.read (fdEntry tmp₁.path l.name).path = some c := by
    intro l hl
    obtain ⟨m, hm, hlast⟩ := lastNamed_isSome hl
    rw [hentry, hpacked.stored, hlast]
    exact hpacked.files m hm
  have hrestoring : Restoring e tmp₁.path (indexedFiles t₀ tmp₀)
      ((readlines text).foldl (unpackLine tmp₁.path) e) := by
    have hstart : Restoring e tmp₁.path [] e := ⟨fun _ hl => (List.not_mem_nil hl).elim, fun _ _ => rfl⟩
    have hall := hstart.lines (readlines text)
    rw [List.nil_append, ← listed, ← hfiles] at hall
    exact hall hfile htmp.files
  refine ⟨_, by unfold unpackExtRes; rw [hread], hrestoring.isDir_eq hfile, fun l hl => ?_⟩
  have habove : ¬ tmp₁.path <+: l.dir := fun h => htmp.files l hl (Loc.above_iff.mpr (.inr h))
  have hplace : HasPlace e l ↔ HasPlace t₁ l := by
    unfold HasPlace
    rw [Tree.isDir_congr (hout _ habove), Tree.isDir_congr (hout _ (htmp.files l hl))]
  constructor
  · intro h
    rw [Tree.read_congr (hrestoring.hit l hl (hplace.mpr h)), hentry, hpacked.stored]
  · intro h
    have hnode := hrestoring.miss l.path fun m _ heq => by
      rw [Loc.path_inj heq]
      exact fun h' => h (hplace.mp h')
    rw [Tree.read_congr (hnode.trans (hout _ (htmp.files l hl)))]
    -- a file would have its directory, and no directory in its place
    cases hc : t₁.read l.path with
    | none => rfl
    | some c => exact absurd ⟨Tree.isDir_dir (Tree.node_of_read hc), Tree.isDir_of_read hc⟩ h

/-- A listed file after `unpack_ext_res`, if no tree has been packed: the copy of its name,
if there is a place for it. -/
theorem unpacked_read (hpacked : Packed t₀ packed tmp₀) (hextract : extract t₁ tmp₁ packed tmp₀ = some e)
    (htmp : TempDir tmp₁.path (indexedFiles t₀ tmp₀)) (hno : t₀.isDir extResDir.path = false)
    {l : Place} (hl : l ∈ indexedFiles t₀ tmp₀) : (unpackExtRes e tmp₁.path).1.read l.path
      = if HasPlace t₁ l then (lastNamed (indexedFiles t₀ tmp₀) l.name).bind fun m => t₀.read m.path
        else none := by
  obtain ⟨t, hunpack, hdirs, hfiles⟩ := restored hpacked hextract htmp
  have hinner : t.isDir (extResDirInner tmp₁.path).path = false := by
    rw [hdirs]
    refine Tree.isDir_of_none (((extract_node hextract).1 [(extResDirInner tmp₁.path).name]).trans ?_)
    exact hpacked.inner hno
  rw [hunpack, replaceExtRes_of_noInner hinner]
  by_cases hplace : HasPlace t₁ l
  · have hloop := (hfiles l hl).1 hplace
    rw [if_pos hplace, ← hloop]
    split
    next hdir =>
      -- the removal of the tree does not reach the file
      refine Tree.read_congr (Tree.prune_elsewhere fun habove => ?_)
      obtain ⟨c, hc⟩ := hpacked.files l hl
      by_cases hself : extResDir.path = l.path
      · obtain ⟨m, hm, hlast⟩ := lastNamed_isSome hl
        obtain ⟨d, hd⟩ := hpacked.files m hm
        rw [hlast] at hloop
        rw [hself, Tree.isDir_of_read (hloop.trans hd)] at hdir
        cases hdir
      · rw [Tree.isDir_of_above habove hself (Tree.node_of_read hc)] at hno
        cases hno
    next => rfl
  · have hloop := (hfiles l hl).2 hplace
    rw [if_neg hplace]
    split
    · by_cases habove : extResDir.path <+: l.path
      · exact Tree.read_of_none (Tree.prune_below habove)
      · exact (Tree.read_congr (Tree.prune_elsewhere habove)).trans hloop
    · exact hloop

/-- **The round trip of a checkpoint.**  Whatever file system the files are packed from,
whatever paths are listed and whatever file system they are restored on: all listed files
and the tree `/data/store/` come back exactly if nothing had to come back of the tree,
files of one name are alike, and every file has a place. -/
theorem round_trips_iff (hpack : packExtRes t₀ tmp₀ = some packed)
    (htmp₀ : TempDir tmp₀ (indexedFiles t₀ tmp₀)) (hnew : t₀.node (extResDirInner tmp₀).path = none)
    (hextract : extract t₁ tmp₁ packed tmp₀ = some e)
    (htmp₁ : TempDir tmp₁.path (indexedFiles t₀ tmp₀)) :
    RoundTrips t₀ (unpackExtRes e tmp₁.path).1 (indexedFiles t₀ tmp₀)
      ↔ Restorable t₀ t₁ (indexedFiles t₀ tmp₀) := by
  have hpacked := packed_of_packExtRes hpack htmp₀ hnew
  have hgone : (unpackExtRes e tmp₁.path).1.under extResDir.path = none := by
    obtain ⟨t, hunpack, -⟩ := restored hpacked hextract htmp₁
    rw [hunpack]
    exact Tree.under_eq_none.mpr (replaceExtRes_isDir htmp₁.store)
  constructor
  · -- a tree that has gone comes back only if there was none
    intro h
    have hno : t₀.isDir extResDir.path = false := Tree.under_eq_none.mp (h.tree.symm.trans hgone)
    have hread : ∀ l ∈ indexedFiles t₀ tmp₀, HasPlace t₁ l
        ∧ ((lastNamed (indexedFiles t₀ tmp₀) l.name).bind fun m => t₀.read m.path) = t₀.read l.path := by
      intro l hl
      have hback := h.files l hl
      rw [unpacked_read hpacked hextract htmp₁ hno hl] at hback
      split at hback
      next hplace => exact ⟨hplace, hback⟩
      next =>
        obtain ⟨c, hc⟩ := hpacked.files l hl
        rw [hc] at hback
        cases hback
    exact ⟨hno, fun l hl => (hread l hl).2, fun l hl => (hread l hl).1⟩
  · intro h
    refine ⟨fun l hl => ?_, hgone.trans (Tree.under_eq_none.mpr h.noTree).symm⟩
    rw [unpacked_read hpacked hextract htmp₁ h.noTree hl, if_pos (h.place l hl)]
    exact h.content l hl

end RoundTrip

/-! ## §9. Two checkpoints. -/

/-- An entry is made, in a directory that is there. -/
def addEntry (t : FileSystem) : Place × Node Text → FileSystem
  | (l, .dir) => (t.mkdir l).getD t
  | (l, .file c) => (t.write l c).getD t

/-- The file system that holds the given entries. -/
def machine (entries : List (Place × Node Text)) : FileSystem := entries.foldl addEntry .empty

/-- A name of one letter. -/
def letter (c : Char) (h : validName [c] = true := by decide) : Name := ⟨[c], h⟩

/-- Two files, `/a/f` and `/b/` followed by a name, and the directories for them. -/
def twoFiles (x : Name) (c d : Text) : List (Place × Node Text) :=
  [(⟨[], letter 'a'⟩, .dir), (⟨[], letter 'b'⟩, .dir),
    (⟨[letter 'a'], letter 'f'⟩, .file c), (⟨[letter 'b'], x⟩, .file d)]

/-- A temporary directory `/t` with the index of the two files. -/
def tempFiles (x : Name) : List (Place × Node Text) :=
  [(⟨[], letter 't'⟩, .dir),
    (fdIndexPath [letter 't'], .file (indexText
      [⟨pathText [letter 'a', letter 'f'], true⟩, ⟨pathText [letter 'b', x], true⟩]))]

/-- A directory `/data/store` with one file. -/
def storeFiles : List (Place × Node Text) :=
  [(extResDirParent, .dir), (extResDir, .dir), (⟨extResDir.path, letter 'k'⟩, .file ['v'])]

/-- `/a/f` and `/b/g` are open, and there is no tree. -/
def twoNames : FileSystem := machine (twoFiles (letter 'g') ['1'] ['2'] ++ tempFiles (letter 'g'))

/-- A machine where they have other contents. -/
def otherMachine : FileSystem := machine (twoFiles (letter 'g') ['3'] ['4'] ++ storeFiles)

/-- `/a/f` and `/b/f` are open, and there is a tree. -/
def oneName : FileSystem :=
  machine (twoFiles (letter 'f') ['1'] ['2'] ++ storeFiles ++ tempFiles (letter 'f'))

/-- A checkpoint is made in `/t` and extracted in `/u`. -/
def transfer (t₀ t₁ : FileSystem) : Option (FileSystem × FileSystem) := do
  let packed ← packExtRes t₀ [letter 't']
  let e ← extract t₁ ⟨[], letter 'u'⟩ packed [letter 't']
  return (packed, e)

/-- A transfer is packing and extracting. -/
theorem transfer_eq_some {t₀ t₁ : FileSystem} {r : FileSystem × FileSystem} (h : transfer t₀ t₁ = some r) :
    packExtRes t₀ [letter 't'] = some r.1 ∧ extract t₁ ⟨[], letter 'u'⟩ r.1 [letter 't'] = some r.2 := by
  obtain ⟨packed, hpack, h⟩ := Option.bind_eq_some_iff.mp h
  obtain ⟨e, hextract, h⟩ := Option.bind_eq_some_iff.mp h
  cases h
  exact ⟨hpack, hextract⟩

/-- Two files of different names and no tree come back. -/
theorem round_trips_iff_twoNames : ∃ packed e, packExtRes twoNames [letter 't'] = some packed
    ∧ extract otherMachine ⟨[], letter 'u'⟩ packed [letter 't'] = some e
    ∧ RoundTrips twoNames (unpackExtRes e [letter 'u']).1
        [⟨[letter 'a'], letter 'f'⟩, ⟨[letter 'b'], letter 'g'⟩] := by
  obtain ⟨⟨packed, e⟩, hrun⟩ := Option.isSome_iff_exists.mp
    (show (transfer twoNames otherMachine).isSome = true by decide +kernel)
  obtain ⟨hpack, hextract⟩ := transfer_eq_some hrun
  have hfiles : indexedFiles twoNames [letter 't']
      = [⟨[letter 'a'], letter 'f'⟩, ⟨[letter 'b'], letter 'g'⟩] := by decide +kernel
  have hiff := round_trips_iff hpack
    ⟨by decide, by decide, by rw [hfiles]; decide⟩ (by decide +kernel) hextract
    ⟨by decide, by decide, by rw [hfiles]; decide⟩
  rw [hfiles] at hiff
  exact ⟨packed, e, hpack, hextract, hiff.mpr ⟨by decide +kernel, by decide +kernel, by decide +kernel⟩⟩

/-- **A checkpoint of `/a/f`, `/b/f` and a tree `/data/store`**, restored on the machine it
was made on: `unpack_ext_res` reports success, `/a/f` has the content of `/b/f`, the tree
is gone and its file is in `/data/ext_res_dir`. -/
theorem round_trip_loses_store : ∃ packed e, packExtRes oneName [letter 't'] = some packed
    ∧ extract oneName ⟨[], letter 'u'⟩ packed [letter 't'] = some e
    ∧ (unpackExtRes e [letter 'u']).2 = 0
    ∧ oneName.read [letter 'a', letter 'f'] = some ['1']
    ∧ (unpackExtRes e [letter 'u']).1.read [letter 'a', letter 'f'] = some ['2']
    ∧ oneName.isDir extResDir.path = true
    ∧ (unpackExtRes e [letter 'u']).1.isDir extResDir.path = false
    ∧ (unpackExtRes e [letter 'u']).1.read
        (extResDirParent.path ++ [(extResDirInner []).name, letter 'k']) = some ['v'] := by
  have hrun : (transfer oneName oneName).map (fun r =>
      let after := unpackExtRes r.2 [letter 'u']
      (after.2, after.1.read [letter 'a', letter 'f'], after.1.isDir extResDir.path,
        after.1.read (extResDirParent.path ++ [(extResDirInner []).name, letter 'k'])))
      = some (0, some ['2'], false, some ['v']) := by decide +kernel
  obtain ⟨⟨packed, e⟩, htransfer, hafter⟩ := Option.map_eq_some_iff.mp hrun
  obtain ⟨hpack, hextract⟩ := transfer_eq_some htransfer
  simp only [Prod.mk.injEq] at hafter
  exact ⟨packed, e, hpack, hextract, hafter.1, by decide +kernel, hafter.2.1, by decide +kernel,
    hafter.2.2.1, hafter.2.2.2⟩

end RdmaPaxos.Checkpoint
