import MemShell.Alias
import MemShell.Builtin.History
import MemShell.Execute
import MemShell.Tree.Parse
import MemShell.Variable

/-!
# Sessions

A session is what outlives a line: variables, aliases, the lines entered, the
status of the last command, whether the user asked to leave, and the machine
that trees run on. Evaluating a line reads it, runs its trees one after the
other and makes the changes each of them asks for before the next one starts.

Some changes are lines to run, from a file that is *sourced*. Those lines are
evaluated in turn and may source more. Sourcing is limited in depth; the
functions here recurse on the *room* that is left, which the depth of the session
determines, so every line ends whatever the files say.

The signal belongs to one evaluation: it is renewed when a line is evaluated that
is not part of a file being sourced.

Two limits of the machinery underneath are not part of the model. Reading and
running a line nest calls as deep as its aliases and trees go, and only the depth
of sourcing is bounded. And a status is a whole number of any size, which `$?`
writes with all its digits: the bound on digits, `Numeral.maxDigits`, is there
where numbers are read, not where they are written.

## Main results

* `nested_ok`, `nested_error` — a nested action gives its level back however it
  ends.
-/

namespace MemShell

/-- What a session works with: a store and the commands. -/
structure Shell (σ : Type) where
  storage : Storage σ
  registry : Registry (Command σ)

/-- What outlives a line. -/
structure Session (σ : Type) where
  env : Table String String
  aliases : Table String String := ∅
  /-- The lines entered, in order. -/
  history : List String := []
  lastStatus : Int := 0
  exitRequested : Bool := false
  exitCode : Int := 0
  /-- How many files are being sourced. -/
  depth : Nat := 0
  machine : Machine σ

/-- An action on a session. -/
abbrev SessionM (σ α : Type) := EStateM Raised (Session σ) α

namespace Session

variable {σ α : Type}

def defaultEnv : Table String String :=
  .ofList [("PATH", "/bin"), ("HOME", "/home/tronos"), ("USER", "tronos"), ("PWD", "/")]

/-- The most files that may be sourced from within each other. -/
def maxDepth : Nat := 16

/-- The status of a line that cannot be read. -/
def syntaxErrorStatus : Int := 2

def start (env aliases : Table String String) (store : σ) : Session σ :=
  { env := defaultEnv.insertMany env.entries, aliases, machine := { store } }

/-- The store of a session that is given none: directories for programs, for
temporary files and for the user. -/
def ownStore (env : Table String String) : FileTree :=
  let home := ((defaultEnv.insertMany env.entries).get? "HOME").getD ""
  FileTree.ofDirs ["/bin", "/tmp", home]

/-! ## Reading a line -/

/-- The variables that a line can refer to. -/
def expansionEnv (s : Session σ) : Table String String :=
  s.env.insert "?" (toString s.lastStatus)

/-- The trees of a line, with given aliases and variables. -/
def parseWith (aliases env : Table String String) (line : String) :
    Except LineError (List Tree) := do
  let tokens ← (Token.tokenize line).mapError .lexical
  let expanded ← (Token.expandAliases aliases tokens).mapError .lexical
  let filled ← Token.expandVariablesList env expanded
  (Tree.build filled).mapError .parse

def parse (s : Session σ) (line : String) : Except LineError (List Tree) :=
  parseWith s.aliases s.expansionEnv line

/-! ## Actions on parts of a session -/

/-- Acts on the machine. -/
def onMachine (action : MachineM Raised σ α) : SessionM σ α := fun s =>
  match action s.machine with
  | .ok a m => .ok a { s with machine := m }
  | .error e m => .error e { s with machine := m }

def emit (e : Event) : SessionM σ Unit :=
  onMachine (Execute.emit e)

/-- Asks the store; a fault is not met here. -/
def onStorage (action : HostM Fault σ α) : SessionM σ α :=
  onMachine (Execute.onHost (raising action))

/-- What commands see of the session. -/
def context (shell : Shell σ) (s : Session σ) : Context σ :=
  { env := s.env
    storage := some shell.storage
    aliases := some s.aliases
    history := some s.history }

def deeper (s : Session σ) : Session σ :=
  { s with depth := s.depth + 1, machine := s.machine.log (.entered (s.depth + 1)) }

/-- Runs an action one level deeper. The level is left however it ends. -/
def nested (action : SessionM σ α) : SessionM σ α := fun s =>
  match action s.deeper with
  | .ok a t => .ok a { t with depth := t.depth - 1 }
  | .error e t => .error e { t with depth := t.depth - 1 }

/-! ## Changes -/

def changedEnv (env : Table String String) (c : Changes) : Table String String :=
  (env.insertMany c.exports.entries).eraseMany c.unsets

def changedAliases (aliases : Table String String) (c : Changes) : Table String String :=
  let kept := if c.clearAliases then ∅ else aliases
  (kept.eraseMany c.unaliases).insertMany c.aliases.entries

/-- Moves to another directory and remembers the one before. -/
def moveTo (env : Table String String) (path : String) : Table String String :=
  (env.insert "OLDPWD" ((env.get? "PWD").getD "/")).insert "PWD" path

/-- Makes the change of directory, if the directory is still there. -/
def changeDir (shell : Shell σ) : Option String → SessionM σ Unit
  | none => return ()
  | some path => do
      let there ←
        match shell.storage.isDir with
        | none => Pure.pure true
        | some isDir => onStorage (isDir path)
      if there then modify fun s => { s with env := moveTo s.env path }
      else emit (.targetVanished path)

/-- Makes changes; `sourcing` runs the lines among them. Gives what those lines
printed, if there are any. -/
def applyWith (sourcing : List String → SessionM σ Output) (shell : Shell σ) (c : Changes) :
    SessionM σ (Option Output) := do
  modify fun s =>
    { s with env := changedEnv s.env c, aliases := changedAliases s.aliases c }
  changeDir shell c.chdir
  emit (.applied c)
  let extra ←
    if c.sourceLines.isEmpty then Pure.pure none
    else some <$> sourcing c.sourceLines
  match c.exitCode with
  | none => return extra
  | some code => do
      modify fun s => { s with exitRequested := true, exitCode := code }
      emit (.exitAsked code)
      return extra

/-! ## Lines -/

/-- Runs one tree and makes its changes. -/
def runTree (sourcing : List String → SessionM σ Output) (shell : Shell σ) (tree : Tree) :
    SessionM σ Output := do
  emit (.started tree)
  let s ← get
  let result ← onMachine (Execute.run shell.registry (s.context shell) tree)
  modify fun s => { s with lastStatus := result.status }
  if result.changes.isEmpty then return result.output
  match ← applyWith sourcing shell result.changes with
  | none => return result.output
  | some extra => return result.output.followedBy extra

/-- Runs trees one after the other, until the user asked to leave or a tree was
interrupted. -/
def runTrees (sourcing : List String → SessionM σ Output) (shell : Shell σ) :
    List Tree → Output → SessionM σ Output
  | [], before => return before
  | tree :: trees, before => do
      let output ← runTree sourcing shell tree
      let sofar := before.followedBy output
      let s ← get
      if s.exitRequested || output.status == Outcome.interruptedStatus then return sofar
      runTrees sourcing shell trees sofar

/-- Gives a line evaluated on its own a signal of its own. -/
def renewSignal : SessionM σ Unit :=
  modify fun s =>
    if s.depth = 0 then { s with machine := { s.machine with signal := some ⟨false, false⟩ } }
    else s

/-- Evaluates a line; `sourcing` runs the lines of files. -/
def evaluateWith (sourcing : List String → SessionM σ Output) (shell : Shell σ)
    (line : String) : SessionM σ Output := do
  let s ← get
  if !Builtin.hasCommand line then return { status := s.lastStatus }
  match s.parse line with
  | .error e => do
      set { s with lastStatus := syntaxErrorStatus }
      return { stderr := "tronsh: syntax error: " ++ e.message ++ "\n",
               status := syntaxErrorStatus }
  | .ok trees => do
      renewSignal
      runTrees sourcing shell trees { status := s.lastStatus }

/-- Evaluates lines one after the other, until the user asked to leave. -/
def runEach (evaluate : String → SessionM σ Output) : List String → Output → SessionM σ Output
  | [], before => return before
  | line :: lines, before => do
      let output ← evaluate line
      let sofar := before.followedBy output
      let s ← get
      if s.exitRequested then return sofar
      runEach evaluate lines sofar

/-- Runs the lines of a file with `room` levels of sourcing left. -/
def runLinesIn (shell : Shell σ) : Nat → List String → SessionM σ Output
  | 0, _ => return { stderr := "source: maximum nesting depth exceeded\n", status := 1 }
  | room + 1, lines => nested (runEach (evaluateWith (runLinesIn shell room) shell) lines {})

/-- The levels of sourcing that are left. -/
def room (s : Session σ) : Nat :=
  maxDepth - s.depth

def runLines (shell : Shell σ) (lines : List String) : SessionM σ Output := fun s =>
  runLinesIn shell s.room lines s

def evaluate (shell : Shell σ) (line : String) : SessionM σ Output := fun s =>
  evaluateWith (runLinesIn shell s.room) shell line s

/-- Makes changes; gives what sourced lines printed, if there are any. -/
def apply (shell : Shell σ) (c : Changes) : SessionM σ (Option Output) := fun s =>
  applyWith (runLinesIn shell s.room) shell c s

/-! ## The profile -/

/-- The file that is run when a session starts. -/
def profilePath (s : Session σ) : String :=
  Registry.dropSlashes ((s.env.get? "HOME").getD "/") ++ "/.profile"

/-- Runs the profile, if there is one. -/
def runProfile (shell : Shell σ) : SessionM σ (Option Output) := do
  let s ← get
  let path := s.profilePath
  let found ← onStorage (shell.storage.contains path)
  if !found then return none
  match ← onMachine (attempt (Execute.onHost (shell.storage.read path))) with
  | .error fault => do
      emit (.profileUnreadable path fault)
      return some { stderr := "tronsh: " ++ path ++ ": " ++ fault.message ++ "\n", status := 1 }
  | .ok content => do
      let output ← runLines shell (Builtin.commandLines content)
      if output.status ≠ 0 then emit (.profileFailed path output.status)
      return some output

/-! ## The user's side -/

/-- Evaluates a line; an interrupt ends it with a status of its own. -/
def evaluateLine (shell : Shell σ) (line : String) : SessionM σ Output := fun s =>
  match evaluate shell line s with
  | .error .interrupt t =>
      .ok (Outcome.interrupted {}).output { t with lastStatus := Outcome.interruptedStatus }
  | other => other

/-- Remembers a line, unless it is blank. -/
def remember (line : String) (s : Session σ) : Session σ :=
  if (Text.trim line.toList).isEmpty then s else { s with history := s.history ++ [line] }

/-- Remembers and evaluates a line that the user entered. -/
def enterLine (shell : Shell σ) (line : String) : SessionM σ Output := do
  modify (remember line)
  evaluateLine shell line

/-- A nested action that ends well gives its level back. -/
theorem nested_ok {action : SessionM σ α} {s t : Session σ} {a : α}
    (h : action s.deeper = .ok a t) :
    nested action s = .ok a { t with depth := t.depth - 1 } := by
  simp [nested, h]

/-- So does one that does not. -/
theorem nested_error {action : SessionM σ α} {s t : Session σ} {e : Raised}
    (h : action s.deeper = .error e t) :
    nested action s = .error e { t with depth := t.depth - 1 } := by
  simp [nested, h]

end Session

end MemShell
