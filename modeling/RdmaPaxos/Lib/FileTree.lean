/-
  RdmaPaxos.Lib.FileTree
  ──────────────────────
  **DIRECTORY TREES.**

  A tree says what stands at each path (a list of names, `[]` the root): nothing, a
  directory or a file.  What it carries as a field is that every entry lies in a
  directory, so that nothing is below a file or below a path where nothing is.

  The operations are total on well-formed arguments and partial otherwise:

      put     one entry                 write, mkdir
      prune   a path and all below it
      graft   another tree's directory, with all below it, at a new place

  each with one equation for what stands at each path afterwards.
-/
import Mathlib.Data.List.Induction

namespace RdmaPaxos.FileTree

/-! ## §1. Trees. -/

/-- What is under a path. -/
inductive Node (β : Type) where
  | dir
  | file (content : β)
  deriving Repr, DecidableEq

/-- The place of an entry: a directory, and a name in it. -/
structure Loc (α : Type) where
  dir : List α
  name : α
  deriving Repr, DecidableEq

/-- The path of a name in a directory. -/
def Loc.path {α : Type} (l : Loc α) : List α := l.dir ++ [l.name]

/-- A tree of directories and files: the root is a directory, and what exists is in one. -/
structure Tree (α β : Type) where
  node : List α → Option (Node β)
  root : node [] = some .dir
  inDir : ∀ l : Loc α, node l.path ≠ none → node l.dir = some .dir

section Paths
variable {α : Type} {l m : Loc α} {p q : List α}

/-- A path has one last name and one directory. -/
theorem Loc.path_inj (h : l.path = m.path) : l = m := by
  obtain ⟨hdir, hname⟩ := List.append_inj' h rfl
  cases l
  cases m
  cases hdir
  cases hname
  rfl

theorem Loc.path_ne_nil (l : Loc α) : l.path ≠ [] := by
  unfold Loc.path
  simp

/-- A path at or above an entry is the entry's own or at or above its directory. -/
theorem Loc.above_iff : p <+: l.path ↔ p = l.path ∨ p <+: l.dir := List.prefix_concat_iff

/-- A place is not above its own directory. -/
theorem Loc.not_above_dir (l : Loc α) : ¬ l.path <+: l.dir := by
  intro h
  have hlen := h.length_le
  rw [Loc.path, List.length_append, List.length_singleton] at hlen
  omega

theorem Loc.dir_ne_path (l : Loc α) : l.dir ≠ l.path := fun h =>
  l.not_above_dir ⟨[], by rw [List.append_nil, h]⟩

/-- Of two names in one directory, none is above the other. -/
theorem Loc.not_above_sibling (hdir : l.dir = m.dir) (hne : l ≠ m) : ¬ l.path <+: m.path := by
  intro h
  rcases Loc.above_iff.mp h with heq | habove
  · exact hne (Loc.path_inj heq)
  · rw [← hdir] at habove
    exact l.not_above_dir habove

/-- What is below a path, by the rest of its own. -/
theorem drop_of_above (h : p <+: q) : ∃ r, q = p ++ r ∧ q.drop p.length = r := by
  obtain ⟨r, rfl⟩ := h
  exact ⟨r, rfl, List.drop_left⟩

end Paths

namespace Tree

variable {α β : Type} {t t' s : Tree α β} {l : Loc α} {p q : List α}

/-- Nothing but the root. -/
def empty [DecidableEq α] : Tree α β where
  node q := if q = [] then some .dir else none
  root := if_pos rfl
  inDir := by
    intro l h
    rw [if_neg l.path_ne_nil] at h
    exact absurd rfl h

/-- There is a directory at `p`. -/
def isDir (t : Tree α β) (p : List α) : Bool :=
  match t.node p with
  | some .dir => true
  | _ => false

/-- The content of the file at `p`. -/
def read (t : Tree α β) (p : List α) : Option β :=
  match t.node p with
  | some (.file c) => some c
  | _ => none

/-- The directory at `p` with all below it. -/
def under (t : Tree α β) (p : List α) : Option (List α → Option (Node β)) :=
  if t.isDir p then some fun r => t.node (p ++ r) else none

/-- A directory is there. -/
theorem isDir_iff : t.isDir p = true ↔ t.node p = some .dir := by
  unfold isDir
  split
  next h => exact ⟨fun _ => h, fun _ => rfl⟩
  next h => exact ⟨fun hno => (by cases hno), fun hdir => absurd hdir h⟩

/-- A file is there. -/
theorem read_eq_some {c : β} : t.read p = some c ↔ t.node p = some (.file c) := by
  unfold read
  split
  next d h =>
    rw [h]
    constructor
    · rintro ⟨⟩
      rfl
    · rintro ⟨⟩
      rfl
  next h => exact ⟨fun hno => (by cases hno), fun hfile => absurd hfile (h c)⟩

theorem isDir_congr (h : t'.node p = t.node p) : t'.isDir p = t.isDir p := by
  unfold isDir
  rw [h]

theorem read_congr (h : t'.node p = t.node q) : t'.read p = t.read q := by
  unfold read
  rw [h]

/-- A file is no directory. -/
theorem isDir_of_read {c : β} (h : t.read p = some c) : t.isDir p = false := by
  unfold isDir
  rw [read_eq_some.mp h]

/-- Nor is what does not exist. -/
theorem isDir_of_none (h : t.node p = none) : t.isDir p = false := by
  unfold isDir
  rw [h]

theorem read_of_none (h : t.node p = none) : t.read p = none := by
  unfold read
  rw [h]

/-- Only directories have something under them. -/
theorem under_eq_none : t.under p = none ↔ t.isDir p = false := by
  unfold under
  split
  next h => exact ⟨fun hno => (by cases hno), fun hno => (by rw [h] at hno; cases hno)⟩
  next h => exact ⟨fun _ => (Bool.not_eq_true _).mp h, fun _ => rfl⟩

theorem node_of_read {c : β} (h : t.read p = some c) : t.node p ≠ none := by
  rw [read_eq_some.mp h]
  nofun

/-- What is above an entry is a directory; by induction on the path between them. -/
theorem isDir_of_below {x : α} {r : List α} (h : t.node (p ++ x :: r) ≠ none) : t.isDir p = true := by
  induction r using List.reverseRecOn with
  | nil => exact isDir_iff.mpr (t.inDir ⟨p, x⟩ h)
  | append_singleton r y ih =>
      have hdir := t.inDir ⟨p ++ x :: r, y⟩ (by simpa [Loc.path] using h)
      refine ih ?_
      rw [hdir]
      nofun

/-- Whatever has something below it is a directory. -/
theorem isDir_of_above (hpre : p <+: q) (hne : p ≠ q) (h : t.node q ≠ none) : t.isDir p = true := by
  obtain ⟨r, rfl⟩ := hpre
  cases r with
  | nil => exact absurd (List.append_nil p).symm hne
  | cons x r => exact isDir_of_below h

/-- Nothing is below a path without a directory. -/
theorem node_of_not_isDir (hpre : p <+: q) (hne : p ≠ q) (h : t.isDir p = false) : t.node q = none := by
  by_contra hnode
  rw [isDir_of_above hpre hne hnode] at h
  cases h

/-- What exists is in a directory. -/
theorem isDir_dir (h : t.node l.path ≠ none) : t.isDir l.dir = true := isDir_iff.mpr (t.inDir l h)

/-! ## §2. Operations. -/

variable [DecidableEq α]

/-- One entry. -/
def put (t : Tree α β) (l : Loc α) (n : Node β) (hdir : t.isDir l.dir = true)
    (hn : n = .dir ∨ t.isDir l.path = false) : Tree α β where
  node q := if q = l.path then some n else t.node q
  root := by
    rw [if_neg l.path_ne_nil.symm]
    exact t.root
  inDir := by
    intro m hm
    by_cases hml : m.path = l.path
    · rw [Loc.path_inj hml, if_neg l.dir_ne_path]
      exact isDir_iff.mp hdir
    · rw [if_neg hml] at hm
      have hold := t.inDir m hm
      split
      next heq =>
        -- an entry of the place itself: it was a directory, and remains one
        rw [heq] at hold
        rcases hn with rfl | hno
        · rfl
        · rw [isDir_iff.mpr hold] at hno
          cases hno
      next => exact hold

/-- A path with all below it is taken away. -/
def prune (t : Tree α β) (l : Loc α) : Tree α β where
  node q := if l.path <+: q then none else t.node q
  root := by
    rw [if_neg fun h => l.path_ne_nil (List.prefix_nil.mp h)]
    exact t.root
  inDir := by
    intro m hm
    split at hm
    · exact absurd rfl hm
    next hno =>
      rw [if_neg fun h => hno (Loc.above_iff.mpr (.inr h))]
      exact t.inDir m hm

/-- What `s` has at `src` and below, at `l`. -/
def graft (t : Tree α β) (l : Loc α) (s : Tree α β) (src : List α) (hdir : t.isDir l.dir = true) :
    Tree α β where
  node q := if l.path <+: q then s.node (src ++ q.drop l.path.length) else t.node q
  root := by
    rw [if_neg fun h => l.path_ne_nil (List.prefix_nil.mp h)]
    exact t.root
  inDir := by
    intro m hm
    by_cases hup : l.path <+: m.dir
    · -- below the new place, as below the old one
      obtain ⟨r, hr, hdrop⟩ := drop_of_above hup
      have hpath : m.path = l.path ++ (r ++ [m.name]) := by rw [Loc.path, hr, List.append_assoc]
      rw [if_pos (Loc.above_iff.mpr (.inr hup)), hpath, List.drop_left] at hm
      rw [if_pos hup, hdrop]
      refine s.inDir ⟨src ++ r, m.name⟩ ?_
      show s.node (src ++ r ++ [m.name]) ≠ none
      rw [List.append_assoc]
      exact hm
    · rw [if_neg hup]
      by_cases hself : l.path = m.path
      · rw [← Loc.path_inj hself]
        exact isDir_iff.mp hdir
      · rw [if_neg fun h => (Loc.above_iff.mp h).elim hself hup] at hm
        exact t.inDir m hm

/-- `open(path, "wb")` and a write. -/
def write (t : Tree α β) (l : Loc α) (c : β) : Option (Tree α β) :=
  if h : t.isDir l.dir = true ∧ t.isDir l.path = false then some (t.put l (.file c) h.1 (.inr h.2))
  else none

/-- A new directory, where there is nothing yet. -/
def mkdir (t : Tree α β) (l : Loc α) : Option (Tree α β) :=
  if h : t.isDir l.dir = true ∧ (t.node l.path).isNone then some (t.put l .dir h.1 (.inl rfl)) else none

/-- What `write` changes, when it succeeds. -/
theorem write_eq_some {c : β} (h : t.write l c = some t') : t.isDir l.dir = true
    ∧ t.isDir l.path = false ∧ ∀ q, t'.node q = if q = l.path then some (.file c) else t.node q := by
  unfold write at h
  split at h
  next hok =>
    cases h
    exact ⟨hok.1, hok.2, fun _ => rfl⟩
  next => cases h

/-- It does in a directory, where no directory is. -/
theorem write_of_place (c : β) (hdir : t.isDir l.dir = true) (hfree : t.isDir l.path = false) :
    ∃ t', t.write l c = some t' := ⟨_, dif_pos ⟨hdir, hfree⟩⟩

/-- And only there. -/
theorem write_eq_none {c : β} (h : ¬ (t.isDir l.dir = true ∧ t.isDir l.path = false)) :
    t.write l c = none := dif_neg h

/-- What `mkdir` changes, when it succeeds. -/
theorem mkdir_eq_some (h : t.mkdir l = some t') : t.isDir l.dir = true ∧ t.node l.path = none
    ∧ ∀ q, t'.node q = if q = l.path then some .dir else t.node q := by
  unfold mkdir at h
  split at h
  next hok =>
    cases h
    exact ⟨hok.1, Option.isNone_iff_eq_none.mp hok.2, fun _ => rfl⟩
  next => cases h

/-- Everything below is gone. -/
theorem prune_below (h : l.path <+: q) : (t.prune l).node q = none := if_pos h

/-- Everything else is as it was. -/
theorem prune_elsewhere (h : ¬ l.path <+: q) : (t.prune l).node q = t.node q := if_neg h

/-- Below the place, the copy. -/
theorem graft_below {src : List α} (hdir : t.isDir l.dir = true) (r : List α) :
    (t.graft l s src hdir).node (l.path ++ r) = s.node (src ++ r) := by
  show (if l.path <+: l.path ++ r then s.node (src ++ (l.path ++ r).drop l.path.length)
    else t.node (l.path ++ r)) = s.node (src ++ r)
  rw [if_pos (List.prefix_append ..), List.drop_left]

/-- Everything else is as it was. -/
theorem graft_elsewhere {src : List α} (hdir : t.isDir l.dir = true) (hno : ¬ l.path <+: q) :
    (t.graft l s src hdir).node q = t.node q := if_neg hno

end Tree

end RdmaPaxos.FileTree
