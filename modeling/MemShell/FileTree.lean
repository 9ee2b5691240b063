import MemShell.Fault
import MemShell.Table

/-!
# Files and directories in memory

A file tree is a table of file contents and a list of directories, both keyed by
`Location`. Files are written into directories that exist; directories can be
made one at a time or together with the ones above them. Nothing is ever
removed.

All operations take a path text and read it as a `Location`, so two texts that
name the same entry are the same to the store.

## Main results

* `mem_addDir`, `files_addDir` — a new directory adds one entry and touches no
  file.
-/

namespace MemShell

/-- A tree of files and directories. -/
structure FileTree where
  files : Table Location String
  /-- The directories, in the order in which they were made. -/
  dirs : List Location

namespace FileTree

def empty : FileTree :=
  ⟨∅, [.root]⟩

instance : Inhabited FileTree := ⟨empty⟩

def hasDir (t : FileTree) (l : Location) : Bool :=
  t.dirs.contains l

def hasFile (t : FileTree) (l : Location) : Bool :=
  t.files.contains l

def isDir (t : FileTree) (path : String) : Bool :=
  t.hasDir (.ofText path)

/-- Whether a path names a file or a directory. -/
def contains (t : FileTree) (path : String) : Bool :=
  t.hasFile (.ofText path) || t.hasDir (.ofText path)

/-! ## Files -/

def read (t : FileTree) (path : String) : Except Fault String :=
  let l := Location.ofText path
  if t.hasDir l then .error (.isDirectory l)
  else
    match t.files.get? l with
    | some content => .ok content
    | none => .error (.notFound l)

/-- The entry that a path names, if a file may be written there. -/
def writable (t : FileTree) (path : String) : Except Fault Location :=
  let l := Location.ofText path
  if t.hasDir l then .error (.isDirectory l)
  else if t.hasDir l.parent then .ok l
  else if t.hasFile l.parent then .error (.notDirectory l.parent)
  else .error (.notFound l.parent)

/-- Replaces the contents of a file, or makes the file. -/
def write (t : FileTree) (path content : String) : Except Fault FileTree :=
  (t.writable path).map fun l => { t with files := t.files.insert l content }

/-- Adds to the contents of a file, or makes the file. -/
def append (t : FileTree) (path content : String) : Except Fault FileTree :=
  (t.writable path).map fun l =>
    { t with files := t.files.insert l ((t.files.get? l).getD "" ++ content) }

/-! ## Directories -/

def addDir (t : FileTree) (l : Location) : FileTree :=
  if t.hasDir l then t else { t with dirs := t.dirs ++ [l] }

/-- Makes a directory in one that exists. -/
def mkdir (t : FileTree) (path : String) : Except Fault FileTree :=
  let l := Location.ofText path
  if t.hasFile l then .error (.notDirectory l)
  else if t.hasDir l.parent then .ok (t.addDir l)
  else .error (.notFound l.parent)

/-- Makes the directory whose names, last first, are `rev`, and all above it. The
names are checked from the bottom up before anything is made, so a file in the
way leaves the tree as it was. -/
def makeDirs (t : FileTree) : List String → Except Fault FileTree
  | [] => .ok (t.addDir .root)
  | name :: above =>
      let l : Location := ⟨(name :: above).reverse⟩
      if t.hasFile l then .error (.notDirectory l)
      else if t.hasDir l.parent then .ok (t.addDir l)
      else (makeDirs t above).map (·.addDir l)

/-- Makes a directory and all directories above it. -/
def mkdirAll (t : FileTree) (path : String) : Except Fault FileTree :=
  t.makeDirs (Location.ofText path).parts.reverse

/-- Makes a directory and all directories above it where no file is in the way. -/
def ensureDir (t : FileTree) (path : String) : FileTree :=
  match t.mkdirAll path with
  | .ok t' => t'
  | .error _ => t

/-- The tree with the given directories and no files. -/
def ofDirs (paths : List String) : FileTree :=
  paths.foldl ensureDir empty

/-- The names of what is in a place, in order and each once. -/
def namesIn (t : FileTree) (l : Location) : List String :=
  let entries := (t.files.keys ++ t.dirs).filter fun e => e ≠ l && e.parent = l
  (entries.map Location.name).eraseDups.mergeSort fun a b => decide (a ≤ b)

/-- The names of the entries of a directory. -/
def list (t : FileTree) (path : String) : Except Fault (List String) :=
  let l := Location.ofText path
  if t.hasDir l then .ok (t.namesIn l)
  else if t.hasFile l then .error (.notDirectory l)
  else .error (.notFound l)

theorem mem_addDir {t : FileTree} {l m : Location} :
    m ∈ (t.addDir l).dirs ↔ m = l ∨ m ∈ t.dirs := by
  unfold addDir
  split
  · rename_i h
    have hMem : l ∈ t.dirs := by simpa [hasDir] using h
    constructor
    · exact Or.inr
    · rintro (rfl | h)
      · exact hMem
      · exact h
  · simp [or_comm]

@[simp] theorem files_addDir (t : FileTree) (l : Location) : (t.addDir l).files = t.files := by
  unfold addDir
  split <;> rfl

end FileTree

end MemShell
