import MemShell.Builtin
import MemShell.Cli.Options
import MemShell.Cli.Threshold
import MemShell.Session
import MemShell.Tree.Drawing

/-!
# The program

What the program does for given arguments, settings and inputs, as a list of
writes and a final status. Nothing here waits or prints: the outer layer carries
the writes out.

The program runs one line, shows the tree of a line, or reads lines from a
prompt. It has a session over a store of its own. The profile and each line are
*runs*: an action of the session, carried out by machinery that waits for it. The
machinery has a record of its own for the log, which it leaves at the start of
every run, also of one that comes to nothing. The records of the log come
first among the writes of a run, in the order of the events, because the texts
of a line are written when the line has ended.

The prompt loop is a step function on a `Prompt`, for any store and any commands;
`loop` is its iteration over a list of inputs, and the outer layer iterates it over
the inputs of a terminal. What a line lets out breaks the loop off.

## Main results

* `Prompt.loop_of_isOver` — once the user asked to leave, no input is read.
* `Prompt.respond_blank` — a blank line changes nothing.
-/

namespace MemShell.Cli

variable {σ : Type}

/-- What the environment of the program decides. -/
structure Settings where
  prompt : Option String := none
  /-- The name of the level from which on the log is shown. -/
  logLevel : Option String := none
  home : Option String := none
  /-- The name of what runs wait with on this system. There is none if the machinery of
  runs is kept from the log. -/
  selector : Option String := none

/-- Something to carry out. -/
inductive Write where
  | out (text : String)
  | err (text : String)
  /-- Time that passes. -/
  | pause (seconds : Numeral.Decimal)
deriving DecidableEq, Repr

/-- What the program did. -/
structure Report where
  writes : List Write
  code : Int

namespace Report

def stdout (r : Report) : String :=
  String.join (r.writes.map fun | .out s => s | _ => "")

def stderr (r : Report) : String :=
  String.join (r.writes.map fun | .err s => s | _ => "")

end Report

/-! ## Writes of an action -/

/-- The record that the start of a run leaves. -/
def startRecord (selector : String) : Record :=
  ⟨.debug, "asyncio", "Using selector: %s", [.text selector]⟩

/-- The writes of a record: it is shown at or above the threshold. -/
def writesOfRecord (threshold : Nat) (r : Record) : List Write :=
  if threshold ≤ r.level.rank then [.err r.line] else []

/-- The writes at the start of a run. -/
def writesOfStart (threshold : Nat) : Option String → List Write
  | some selector => writesOfRecord threshold (startRecord selector)
  | none => []

/-- The writes of an event: a record or a pause. -/
def writesOfEvent (threshold : Nat) (e : Event) : List Write :=
  match e with
  | .noted (.waited seconds) => [.pause seconds]
  | e =>
      match e.record? with
      | some r => writesOfRecord threshold r
      | none => []

/-- The writes of an output; an empty text is not written. -/
def writesOfOutput (o : Output) : List Write :=
  (if o.stdout.isEmpty then [] else [.out o.stdout]) ++
    (if o.stderr.isEmpty then [] else [.err o.stderr])

def shell : Shell FileTree :=
  ⟨Storage.memory, Builtin.registry⟩

def newSession (settings : Settings) : Session FileTree :=
  let env : Table String String :=
    match settings.home with
    | some "" | none => ∅
    | some home => Table.ofList [("HOME", home)]
  Session.start env ∅ (Session.ownStore env)

/-- The writes of the events of a session. -/
def writesOfTrace (threshold : Nat) (s : Session σ) : List Write :=
  s.machine.trace.toList.flatMap (writesOfEvent threshold)

/-! ## The prompt -/

/-- What a user can do at the prompt. -/
inductive Input where
  | line (text : String)
  /-- The interrupt key. -/
  | interrupt
deriving DecidableEq, Repr

structure Prompt (σ : Type) where
  session : Session σ
  /-- The status of the last line. -/
  status : Int := 0
  /-- What broke the loop off, if anything did. -/
  broken : Option Raised := none
  /-- The name of what its runs wait with, if the log is to have it. -/
  selector : Option String := none

namespace Prompt

/-- Whether no more input is read. -/
def isOver (p : Prompt σ) : Bool :=
  p.session.exitRequested || p.broken.isSome

/-- The status of the program if it ended now. -/
def code (p : Prompt σ) : Int :=
  match p.broken with
  | some _ => 1
  | none => if p.session.exitRequested then p.session.exitCode else p.status

/-- Runs an action of the session. Gives what was written and the prompt after it, which
is broken off by whatever the action lets out. -/
def act (threshold : Nat) (action : SessionM σ Output) (p : Prompt σ) :
    List Write × Prompt σ :=
  let start := writesOfStart threshold p.selector
  match action { p.session with machine := { p.session.machine with trace := #[] } } with
  | .ok output t =>
      (start ++ (writesOfTrace threshold t ++ writesOfOutput output),
        ⟨t, output.status, none, p.selector⟩)
  | .error e t => (start ++ writesOfTrace threshold t, ⟨t, 1, some e, p.selector⟩)

/-- Runs the profile; without one there is no more than the run. Its status is not kept. -/
def loadProfile (shell : Shell σ) (threshold : Nat) (p : Prompt σ) : List Write × Prompt σ :=
  let (writes, p') := p.act threshold (do return (← Session.runProfile shell).getD {})
  (writes, { p' with status := p.status })

/-- What an input at the prompt leads to. -/
def respond (shell : Shell σ) (threshold : Nat) (p : Prompt σ) : Input → List Write × Prompt σ
  | .interrupt => ([.out "\n"], p)
  | .line text =>
      if (Text.trim text.toList).isEmpty then ([], p)
      else p.act threshold (Session.enterLine shell text)

/-- The loop over a list of inputs; the end of the list is the end of the input. -/
def loop (shell : Shell σ) (threshold : Nat) (prompt : String) :
    Prompt σ → List Input → List Write × Prompt σ
  | p, [] => if p.isOver then ([], p) else ([.out prompt, .out "\n"], p)
  | p, input :: inputs =>
      if p.isOver then ([], p)
      else
        let (writes, p') := p.respond shell threshold input
        let (rest, last) := loop shell threshold prompt p' inputs
        (.out prompt :: writes ++ rest, last)

/-- A blank line changes nothing. -/
theorem respond_blank {shell : Shell σ} {threshold : Nat} {p : Prompt σ} {text : String}
    (h : Text.trim text.toList = []) : p.respond shell threshold (.line text) = ([], p) := by
  simp [respond, h]

/-- Once the loop is over, no input is read. -/
theorem loop_of_isOver {shell : Shell σ} {threshold : Nat} {prompt : String} {p : Prompt σ}
    (h : p.isOver = true) (inputs : List Input) :
    loop shell threshold prompt p inputs = ([], p) := by
  cases inputs <;> simp [loop, h]

end Prompt

/-! ## The whole program -/

/-- What is printed for a line that cannot be read. -/
def syntaxError (e : LineError) : Report :=
  ⟨[.err ("tronsh: syntax error: " ++ e.message ++ "\n")], Session.syntaxErrorStatus⟩

/-- Shows how a line is grouped, and its tokens on demand. -/
def showTree (settings : Settings) (tokens : Bool) (line : String) : Report :=
  let env := Session.defaultEnv.insertMany (settings.home.toList.map fun home => ("HOME", home))
  let shown : Except LineError (List Write) :=
    if tokens then
      (Token.tokenize line).mapError .lexical |>.map fun ts =>
        [.out ("tokens: " ++ Token.briefList ts ++ "\n")]
    else .ok []
  match shown with
  | .error e => syntaxError e
  | .ok writes =>
      match Session.parseWith ∅ (env.insert "?" "0") line with
      | .error e => ⟨writes ++ (syntaxError e).writes, (syntaxError e).code⟩
      | .ok trees => ⟨writes ++ [.out (Tree.drawing trees ++ "\n")], 0⟩

/-- The prompt of a new session. -/
def openPrompt (settings : Settings) : Prompt FileTree :=
  { session := newSession settings, selector := settings.selector }

/-- The prompt loop as it starts: the session, after its profile if there is to be
one, and what that wrote. -/
def begin (settings : Settings) (o : Options) : List Write × Prompt FileTree :=
  let p := openPrompt settings
  if o.noProfile then ([], p)
  else p.loadProfile shell (threshold o.debug settings.logLevel)

/-- Runs one line, a blank one too. The core commands let nothing out of a profile, so the
line is run. -/
def runLine (settings : Settings) (o : Options) (line : String) : Report :=
  let (before, p) := begin settings o
  let (writes, last) :=
    p.act (threshold o.debug settings.logLevel) (Session.enterLine shell line)
  ⟨before ++ writes, last.code⟩

def runPrompt (settings : Settings) (o : Options) (inputs : List Input) : Report :=
  let (before, p) := begin settings o
  let (writes, last) :=
    p.loop shell (threshold o.debug settings.logLevel) (settings.prompt.getD "tronsh> ") inputs
  ⟨before ++ writes, last.code⟩

/-- What the program does. It breaks off, with `none`, when a line is to be run
whose text was dropped. -/
def program (args : List String) (settings : Settings) (inputs : List Input) :
    Option Report :=
  match readArgs args with
  | .error e => some ⟨[.err e.text], 2⟩
  | .ok .help => some ⟨[.out helpText], 0⟩
  | .ok (.run o) =>
      match o.parse, o.command with
      | some value, _ => some (showTree settings o.debug value.text)
      | none, some (.line line) => some (runLine settings o line)
      | none, some .dropped => none
      | none, none => some (runPrompt settings o inputs)

end MemShell.Cli
