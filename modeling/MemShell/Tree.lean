import MemShell.Text.Blank
import MemShell.Text.Quoted

/-!
# Command trees

What a line asks for: commands with arguments and redirections, joined by `|`
into pipelines, pipelines joined by `&&` and `||` into chains. One tree is
built for each part between semicolons, so a line is a list of trees.

A redirection whose file name starts with `<` reads instead of writing: the
rest of the name is the file that the command's input comes from. That is a
property of the file name, not of the operator, and only `>` has it.
-/

namespace MemShell

/-- What a redirection does to its file. -/
inductive RedirectKind where
  /-- Replaces the file. -/
  | write
  /-- Adds to the end of the file. -/
  | append
deriving DecidableEq, Repr

namespace RedirectKind

def name : RedirectKind → String
  | write => "redirect"
  | append => "append"

def operator : RedirectKind → String
  | write => ">"
  | append => ">>"

end RedirectKind

structure Redirect where
  kind : RedirectKind
  file : String
deriving DecidableEq, Repr

namespace Redirect

/-- Whether the command reads from the file. -/
def isInput (r : Redirect) : Bool :=
  r.kind = .write && r.file.toList.head? = some '<'

/-- The file that is read, if this is an input. -/
def inputPath (r : Redirect) : String :=
  Text.strip (String.ofList r.file.toList.tail)

end Redirect

/-- A command with its arguments and redirections. -/
structure Simple where
  command : String
  args : List String
  redirects : List Redirect
deriving DecidableEq, Repr

namespace Simple

/-- The redirections that are read, in order. -/
def inputs (c : Simple) : List Redirect :=
  c.redirects.filter Redirect.isInput

/-- The redirections that are written, in order. -/
def outputs (c : Simple) : List Redirect :=
  c.redirects.filter (!·.isInput)

end Simple

/-- The operators of a chain. -/
inductive Connective where
  | and
  | or
deriving DecidableEq, Repr

def Connective.name : Connective → String
  | and => "and"
  | or => "or"

/-- What one part of a line asks for. -/
inductive Tree where
  | simple (command : Simple)
  | pipeline (stages : List Simple)
  | logical (left : Tree) (connective : Connective) (right : Tree)
deriving DecidableEq, Repr

namespace Tree

/-- The commands of a tree from left to right. -/
def simples : Tree → List Simple
  | simple c => [c]
  | pipeline stages => stages
  | logical left _ right => left.simples ++ right.simples

/-- A pipeline of the given stages; a single stage is the command itself. -/
def ofStages : List Simple → Tree
  | [stage] => simple stage
  | stages => pipeline stages

end Tree

end MemShell
