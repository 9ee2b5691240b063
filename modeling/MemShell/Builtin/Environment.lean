import MemShell.Command

/-!
# Commands for variables and the working directory

`pwd`, `env` and `export` without arguments print the environment; `cd`,
`export` and `unset` ask for changes to it.

A name is a letter or an underscore followed by letters, digits and underscores.
One line feed at the very end is allowed too, so that a name cut from the end of
a line is still a name.
-/

namespace MemShell.Builtin

variable {σ : Type}

/-- Characters a name may start with. -/
def isNameStart (c : Char) : Bool :=
  c = '_' || ('a' ≤ c && c ≤ 'z') || ('A' ≤ c && c ≤ 'Z')

/-- Characters a name may go on with. -/
def isNameRest (c : Char) : Bool :=
  isNameStart c || ('0' ≤ c && c ≤ '9')

/-- A list of characters without one line feed at its end. -/
def dropFinalNewline (cs : List Char) : List Char :=
  if cs.getLast? = some '\n' then cs.dropLast else cs

/-- Whether a text names a variable. -/
def isName (s : String) : Bool :=
  match dropFinalNewline s.toList with
  | [] => false
  | c :: cs => isNameStart c && cs.all isNameRest

def pwd (ctx : Context σ) : Outcome :=
  .printed (ctx.env.textOr "PWD" "/" ++ "\n")

/-- The directory that the arguments of `cd` ask for: the home directory without
an argument, the previous one for a dash. -/
def cdTarget (env : Table String String) : List String → String
  | [] => (env.get? "HOME").getD "/"
  | arg :: _ => arg

/-- Asks for another working directory. Whether it exists is asked first, then
whether it is a directory, if the store can tell. -/
def cd (args : List String) (ctx : Context σ) : HostM Fault σ Outcome := do
  if args.length > 1 then return .failed "cd: too many arguments\n"
  let named := cdTarget ctx.env args
  let target :=
    if named = "-" then ctx.env.textOr "OLDPWD" (ctx.env.textOr "PWD" "/") else named
  let path := ctx.resolve target
  let goes : Outcome := .changing { chdir := some path }
  match ctx.storage with
  | none => return goes
  | some storage =>
      let found ← storage.contains path
      if !found then return .failed ("cd: " ++ target ++ ": No such file or directory\n")
      match storage.isDir with
      | none => return goes
      | some isDir =>
          let ok ← isDir path
          if ok then return goes
          else return .failed ("cd: " ++ target ++ ": Not a directory\n")

/-- Prints the variables, sorted by name. -/
def printEnv (ctx : Context σ) : Outcome :=
  .printed (Text.asLines (ctx.env.sorted.map fun (k, v) => k ++ "=" ++ v))

/-- Reads assignments from left to right up to the first bad name. Arguments
without an equals sign ask for nothing: every variable is visible anyway. -/
def readExports (changes : Changes) : List String → Outcome
  | [] => .changing changes
  | arg :: args =>
      match Text.cut '=' arg with
      | none => readExports changes args
      | some (key, value) =>
          if isName key then
            readExports { changes with exports := changes.exports.insert key value } args
          else
            { stderr := "export: '" ++ key ++ "': not a valid identifier\n"
              status := 1
              changes }

/-- Asks for variables to be set, or prints them. -/
def exportVars (args : List String) (ctx : Context σ) : Outcome :=
  if args.isEmpty then
    .printed (Text.asLines (ctx.env.sorted.map fun (k, v) => "declare -x " ++ k ++ "=\"" ++ v ++ "\""))
  else readExports {} args

/-- Asks for variables to be removed; bad names are reported and skipped. -/
def unsetVars (args : List String) : Outcome :=
  let (good, bad) := args.partition isName
  .withErrors "" (bad.map fun key => "unset: '" ++ key ++ "': not a valid identifier")
    { unsets := good }

end MemShell.Builtin
