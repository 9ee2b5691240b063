import MemShell.Text.Blank

/-!
# Paths

Two readings of a path text live here.

* `Path.normalize` simplifies a text and keeps it a text: empty and `.` pieces
  are dropped, `..` cancels the piece before it, and a relative path stays
  relative. A path that starts with exactly two slashes keeps both, since two
  slashes may name a different root; three or more are one.
* `Location` is an entry of a file store: the names from the root down. Every
  text names one, because a relative text is read from the root and all
  leading slashes mean that root.

The first is what a command is told, the second where the store looks.
-/

namespace MemShell

/-- How a path starts. -/
inductive Anchor where
  | relative
  | root
  | doubleRoot
deriving DecidableEq, Repr

namespace Anchor

/-- The slashes a path starts with. -/
def text : Anchor → String
  | relative => ""
  | root => "/"
  | doubleRoot => "//"

/-- Reads the slashes at the start of a path. -/
def ofChars : List Char → Anchor
  | '/' :: '/' :: '/' :: _ => root
  | '/' :: '/' :: _ => doubleRoot
  | '/' :: _ => root
  | _ => relative

end Anchor

/-- A path without needless pieces. -/
structure Path where
  anchor : Anchor
  /-- The pieces between slashes, in order. -/
  parts : List String
deriving DecidableEq, Repr

namespace Path

/-- Takes one more piece onto the pieces read so far, which are kept last
first. A `..` has nothing to cancel at the start of a relative path, or after
another `..` that was kept for that reason. -/
def push (anchor : Anchor) (stack : List String) (piece : String) : List String :=
  if piece = "" ∨ piece = "." then stack
  else if piece = ".." then
    match stack with
    | [] => if anchor = .relative then [".."] else []
    | top :: below => if top = ".." then piece :: stack else below
  else piece :: stack

def ofText (s : String) : Path :=
  let anchor := Anchor.ofChars s.toList
  ⟨anchor, ((Text.split '/' s).foldl (push anchor) []).reverse⟩

/-- Writes a path; the path without slashes and pieces is the dot. -/
def text (p : Path) : String :=
  let written := p.anchor.text ++ "/".intercalate p.parts
  if written.isEmpty then "." else written

/-- The simplest text for the same path. -/
def normalize (s : String) : String :=
  (ofText s).text

/-- `path` seen from the directory `base`. -/
def join (base path : String) : String :=
  if path.startsWith "/" then path
  else if base.isEmpty || base.endsWith "/" then base ++ path
  else base ++ "/" ++ path

end Path

/-- An entry of a file store: the names that lead to it from the root. -/
structure Location where
  parts : List String
deriving DecidableEq, Repr

namespace Location

def root : Location :=
  ⟨[]⟩

/-- Takes one more piece onto the names read so far, last first. At the root
there is nothing for `..` to leave. -/
def push (stack : List String) (piece : String) : List String :=
  if piece = "" ∨ piece = "." then stack
  else if piece = ".." then stack.tail
  else piece :: stack

/-- The entry that a path text names. -/
def ofText (s : String) : Location :=
  ⟨((Text.split '/' s).foldl push []).reverse⟩

/-- The absolute path of an entry. -/
def text (l : Location) : String :=
  "/" ++ "/".intercalate l.parts

/-- The directory that an entry is in; the root is in itself. -/
def parent (l : Location) : Location :=
  ⟨l.parts.dropLast⟩

/-- The last name of an entry; the root has the empty name. -/
def name (l : Location) : String :=
  l.parts.getLastD ""

end Location

end MemShell
