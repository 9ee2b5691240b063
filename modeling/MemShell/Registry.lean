import MemShell.Path
import MemShell.Table

/-!
# Registries

A registry says what a command name stands for. It has two tables: *builtins*,
found by their name, and *programs*, found by the absolute path they were
installed at. The registry does not care what it holds, so it takes the type of
its entries as a parameter; a registry of `Unit` is a catalogue of names.

A builtin wins over a program. A name with a slash is a path, read from the
working directory; any other name is searched along the directories of `PATH`,
skipping empty ones. In both cases the name itself is tried before the name with
the suffix of programs.

## Main results

* `resolve_eq_builtin` — a builtin wins.
-/

namespace MemShell

/-- Builtins and programs of type `α`. -/
structure Registry (α : Type) where
  builtins : Table String α := ∅
  /-- Programs by absolute path. -/
  programs : Table String α := ∅

/-- A value that is not the empty text, or a default. -/
def Table.textOr (env : Table String String) (name fallback : String) : String :=
  match env.get? name with
  | some "" | none => fallback
  | some value => value

/-- The absolute, simplest form of a path seen from the working directory. -/
def resolvePath (env : Table String String) (path : String) : String :=
  Path.normalize (Path.join (env.textOr "PWD" "/") path)

namespace Registry

variable {α β : Type}

/-- The end of the names of programs. -/
def programSuffix : String := ".trx"

/-- The directories searched when `PATH` has none. -/
def defaultPath : String := "/bin"

/-- Adds a builtin, or replaces the one of that name. -/
def add (r : Registry α) (name : String) (entry : α) : Registry α :=
  { r with builtins := r.builtins.insert name entry }

def addAll (r : Registry α) (names : List String) (entry : α) : Registry α :=
  names.foldl (·.add · entry) r

/-- Installs a program. Gives its normal path, or the relative path that cannot
be installed. -/
def install (r : Registry α) (path : String) (entry : α) :
    Except String (String × Registry α) :=
  let normal := Path.normalize path
  if normal.startsWith "/" then
    .ok (normal, { r with programs := r.programs.insert normal entry })
  else .error normal

/-- Why a program cannot be installed. -/
def notAbsoluteMessage (path : String) : String :=
  "program path must be absolute: " ++ path

/-- The same names for other entries. -/
def map (r : Registry α) (f : α → β) : Registry β :=
  ⟨r.builtins.map f, r.programs.map f⟩

def names (r : Registry α) : Registry Unit :=
  r.map fun _ => ()

def isBuiltin (r : Registry α) (name : String) : Bool :=
  r.builtins.contains name

def dropSlashes (s : String) : String :=
  String.ofList (s.toList.reverse.dropWhile (· = '/')).reverse

/-- The directories of a search path, without the empty ones. -/
def searchPath (env : Table String String) : List String :=
  (Text.split ':' (env.textOr "PATH" defaultPath)).filter (!·.isEmpty)

/-- The paths at which a command is looked for, in order. -/
def candidates (env : Table String String) (name : String) : List String :=
  if '/' ∈ name.toList then
    let path := resolvePath env name
    [path, path ++ programSuffix]
  else
    (searchPath env).flatMap fun dir =>
      [dropSlashes dir ++ "/" ++ name, dropSlashes dir ++ "/" ++ name ++ programSuffix]

/-- The path of the program that a name stands for. -/
def find? (r : Registry α) (env : Table String String) (name : String) : Option String :=
  (candidates env name).find? r.programs.contains

/-- What a name stands for. -/
def resolve (r : Registry α) (env : Table String String) (name : String) : Option α :=
  (r.builtins.get? name).or ((r.find? env name).bind r.programs.get?)

/-- A builtin wins over a program. -/
theorem resolve_eq_builtin {r : Registry α} {name : String} {entry : α}
    (h : r.builtins.get? name = some entry) (env : Table String String) :
    r.resolve env name = some entry := by
  simp [resolve, h]

end Registry

end MemShell
