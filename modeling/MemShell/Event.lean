import MemShell.Command
import MemShell.Tree.Drawing

/-!
# Events

While trees are run, a record is kept of what happened and in which order. It is
the answer to questions such as which commands were started and when, and it is
what the log shows. Commands cannot touch it: what a command or a store does
reaches the record through its notes only.

The log shows some of the events, each as a `Record`: a level, the part of the
shell that speaks, a template with places for arguments, and the arguments. The
other events leave no record; they are there so that what a line did can be said
of its trace: what a command was shown and how it ended, what was not run because
of the signal, where the user asked to leave, how deep the lines of a file were
nested.
-/

namespace MemShell

/-- How a command ended. -/
inductive Ending where
  | outcome (outcome : Outcome)
  /-- It gave back nothing usable. -/
  | unusable
  | raised (raised : Raised)
deriving DecidableEq

/-- The ending of a command that was run to a value. -/
def Ending.ofAnswer : Except Raised (Option Outcome) → Ending
  | .ok (some o) => outcome o
  | .ok none => unusable
  | .error e => raised e

/-- Something that happened while lines were run. -/
inductive Event where
  | installed (path : String)
  /-- A tree is about to be run. -/
  | started (tree : Tree)
  /-- A command's input was read from a file. -/
  | inputRead (command file : String)
  /-- A command is about to run and sees this. -/
  | dispatched (command : String) (args : List String) (view : View)
  /-- A command has ended; `stopped` says whether the signal was up by then. -/
  | ended (command : String) (ending : Ending) (stopped : Bool)
  | redirected (kind : RedirectKind) (command path : String)
  /-- A stage of a pipeline that is not the last has ended. -/
  | stageEnded (index total : Nat) (command : String) (status : Int)
  /-- A tree, a stage or a right side was not run because the signal was up. -/
  | interrupted
  | applied (changes : Changes)
  /-- A new working directory was no longer there. -/
  | targetVanished (path : String)
  /-- The lines of a file are about to run at this depth. -/
  | entered (depth : Nat)
  /-- The session is asked to end with this status. -/
  | exitAsked (code : Int)
  | profileUnreadable (path : String) (fault : Fault)
  | profileFailed (path : String) (status : Int)
  /-- A store or a command left a note. -/
  | noted (note : Note)
deriving DecidableEq

/-- How important a record is. -/
inductive Level where
  | debug
  | warning
deriving DecidableEq, Repr

namespace Level

def name : Level → String
  | debug => "DEBUG"
  | warning => "WARNING"

def rank : Level → Nat
  | debug => 10
  | warning => 30

end Level

inductive Argument where
  | text (s : String)
  | number (n : Int)
  | texts (items : List String)
  | tree (t : Tree)
  | changes (c : Changes)
  | fault (f : Fault)

namespace Argument

/-- The argument for a reader: texts and messages as they are. -/
def plain : Argument → String
  | text s => s
  | number n => toString n
  | texts items => Text.quoteList items
  | tree t => t.display
  | changes c => c.display
  | fault f => f.message

/-- The argument as a value: texts are quoted. -/
def display : Argument → String
  | text s => Text.quote s
  | fault f => f.display
  | a => a.plain

end Argument

/-- A line of the log. -/
structure Record where
  level : Level
  /-- The part of the shell that speaks. -/
  logger : String
  /-- The text, with `%s`, `%d` and `%r` where the arguments go. -/
  template : String
  args : List Argument

namespace Record

/-- Fills the places of a template: `%r` shows the argument as a value, any other
letter shows it plain. -/
def fill : List Char → List Argument → String
  | '%' :: kind :: cs, a :: args =>
      (if kind = 'r' then a.display else a.plain) ++ fill cs args
  | c :: cs, args => c.toString ++ fill cs args
  | [], _ => ""

def message (r : Record) : String :=
  fill r.template.toList r.args

def line (r : Record) : String :=
  r.level.name ++ " - " ++ r.logger ++ " - " ++ r.message ++ "\n"

end Record

/-- The record of an event, if it leaves one. -/
def Event.record? : Event → Option Record
  | installed path => some ⟨.debug, "command", "installed program %s", [.text path]⟩
  | started tree => some ⟨.debug, "ops", "tree %r", [.tree tree]⟩
  | inputRead command file =>
      some ⟨.debug, "ops", "stdin for %s read from %s", [.text command, .text file]⟩
  | dispatched command args _ =>
      some ⟨.debug, "ops", "dispatch %s %r", [.text command, .texts args]⟩
  | ended command (.raised (.fault fault)) _ =>
      some ⟨.debug, "ops", "%s raised %r", [.text command, .fault fault]⟩
  | redirected kind command path =>
      some ⟨.debug, "ops", "%s %s -> %s", [.text kind.name, .text command, .text path]⟩
  | stageEnded index total command status =>
      some ⟨.debug, "ops", "stage %d/%d %s exited %d",
        [.number index, .number total, .text command, .number status]⟩
  | applied changes => some ⟨.debug, "ops", "applied %r", [.changes changes]⟩
  | targetVanished path => some ⟨.warning, "ops", "cd target vanished: %s", [.text path]⟩
  | profileUnreadable path fault =>
      some ⟨.warning, "ops", "could not read %s: %s", [.text path, .fault fault]⟩
  | profileFailed path status =>
      some ⟨.warning, "ops", "%s exited with %d", [.text path, .number status]⟩
  | noted (.wrote location length) =>
      some ⟨.debug, "vfs", "write %s (%d chars)", [.text location.text, .number length]⟩
  | noted (.appended location length) =>
      some ⟨.debug, "vfs", "append %s (%d chars)", [.text location.text, .number length]⟩
  | ended _ _ _ | interrupted | entered _ | exitAsked _ | noted (.waited _) => none

end MemShell
