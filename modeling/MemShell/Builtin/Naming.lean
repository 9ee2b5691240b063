import MemShell.Command
import MemShell.Text.Digit

/-!
# Commands for aliases, and what a name stands for

`alias` prints and defines aliases, `unalias` removes them, and `type` tells
what a name stands for.

The name of an alias must be one that a line can use: it is not empty, does not
start with a digit, and has no blank, no operator character and no equals sign
in it.
-/

namespace MemShell.Builtin

variable {σ : Type}

/-- Characters that cannot be in the name of an alias. -/
def isBadAliasChar (c : Char) : Bool :=
  c = '=' || Text.isBlank c || c = '|' || c = '&' || c = ';' || c = '>' || c = '<'

/-- Whether a text can be the name of an alias. -/
def isAliasName (name : String) : Bool :=
  match name.toList with
  | [] => false
  | c :: cs => !Text.isDigit c && !(c :: cs).any isBadAliasChar

/-- A text without the quotes around it, if it starts and ends with the same one. -/
def unquote (value : String) : String :=
  match value.toList with
  | c :: d :: cs =>
      if (c = '"' ∨ c = '\'') ∧ (d :: cs).getLast? = some c then
        String.ofList (d :: cs).dropLast
      else value
  | _ => value

def showAlias (name value : String) : String :=
  "alias " ++ name ++ "='" ++ value ++ "'"

/-- What `alias` has found so far. -/
structure AliasReport where
  shown : List String := []
  errors : List String := []
  defined : Table String String := ∅

/-- One argument of `alias`: a definition, or a name to show. -/
def aliasArg (known : Table String String) (r : AliasReport) (arg : String) : AliasReport :=
  match Text.cut '=' arg with
  | none =>
      match known.get? arg with
      | some value => { r with shown := r.shown ++ [showAlias arg value] }
      | none => { r with errors := r.errors ++ ["alias: " ++ arg ++ ": not found"] }
  | some (name, value) =>
      if isAliasName name then { r with defined := r.defined.insert name (unquote value) }
      else { r with errors := r.errors ++ ["alias: '" ++ name ++ "': invalid alias name"] }

/-- Prints all aliases, or shows and defines those in the arguments. -/
def defineAliases (args : List String) (ctx : Context σ) : Outcome :=
  let known := ctx.aliases.getD ∅
  if args.isEmpty then
    .printed (Text.asLines (known.sorted.map fun (k, v) => showAlias k v))
  else
    let r := args.foldl (aliasArg known) {}
    .withErrors (Text.asLines r.shown) r.errors { aliases := r.defined }

/-- What `unalias` has found so far. -/
structure UnaliasReport where
  errors : List String := []
  removed : List String := []
  clear : Bool := false

/-- One argument of `unalias`: `-a` for all aliases, or a name. -/
def unaliasArg (known : Table String String) (r : UnaliasReport) (arg : String) :
    UnaliasReport :=
  if arg = "-a" then { r with clear := true }
  else if !isAliasName arg then
    { r with errors := r.errors ++ ["unalias: '" ++ arg ++ "': invalid alias name"] }
  else if known.contains arg then { r with removed := r.removed ++ [arg] }
  else { r with errors := r.errors ++ ["unalias: " ++ arg ++ ": not found"] }

def removeAliases (args : List String) (ctx : Context σ) : Outcome :=
  if args.isEmpty then .failed "unalias: usage: unalias [-a] name [name ...]\n"
  else
    let r := args.foldl (unaliasArg (ctx.aliases.getD ∅)) {}
    .withErrors "" r.errors { unaliases := r.removed, clearAliases := r.clear }

/-! ## `type` -/

/-- What a name stands for. -/
inductive Meaning where
  | aliased (value : String)
  | builtin
  | program (path : String)
  | unknown
deriving DecidableEq, Repr

/-- Looks a name up: aliases first, then builtins, then programs. -/
def meaning (call : Call σ) (name : String) : Meaning :=
  match (call.context.aliases.getD ∅).get? name with
  | some value => .aliased value
  | none =>
      if call.catalogue.isBuiltin name then .builtin
      else
        match call.catalogue.find? call.context.env name with
        | some path => .program path
        | none => .unknown

/-- The meaning of a name in words, if it has one. -/
def Meaning.text? (name : String) : Meaning → Option String
  | aliased value => some (name ++ " is aliased to `" ++ value ++ "'")
  | builtin => some (name ++ " is a shell builtin")
  | program path => some (name ++ " is " ++ path)
  | unknown => none

/-- Tells what names stand for. -/
def describe (call : Call σ) : Outcome :=
  if call.args.isEmpty then .failed "type: usage: type name [name ...]\n"
  else
    let found := call.args.filterMap fun name => (meaning call name).text? name
    let missing := call.args.filter fun name => meaning call name = .unknown
    .withErrors (Text.asLines found)
      (missing.map fun name => "type: " ++ name ++ ": not found") {}

end MemShell.Builtin
