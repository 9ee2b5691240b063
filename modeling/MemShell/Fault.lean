import MemShell.Path
import MemShell.Text.Quoted

/-!
# Faults

A *fault* is an ordinary failure of a file store or a command: it carries a
message for the user and is turned into a failed result where it is met. Besides
faults, a command can end by an *interrupt* from the keyboard or by being
*cancelled*, and those two go up to whoever started the line.

Every fault has its message from the start. A failure that makes its message only
when it is asked for, and may fail in that, is not part of the model.
-/

namespace MemShell

/-- An ordinary failure. -/
inductive Fault where
  | notFound (location : Location)
  /-- A directory is where a file is wanted. -/
  | isDirectory (location : Location)
  /-- A file is where a directory is wanted. -/
  | notDirectory (location : Location)
  /-- Any other failure of a store. -/
  | storage (message : String)
  /-- A text that cannot be read as a value. -/
  | value (message : String)
  /-- Any other failure of a command. -/
  | failure (message : String)
deriving DecidableEq, Repr

namespace Fault

def message : Fault → String
  | notFound _ => "No such file or directory"
  | isDirectory _ => "Is a directory"
  | notDirectory _ => "Not a directory"
  | storage message | value message | failure message => message

def kindName : Fault → String
  | notFound _ => "FileNotFoundStorageError"
  | isDirectory _ => "IsADirectoryStorageError"
  | notDirectory _ => "NotADirectoryStorageError"
  | storage _ => "StorageError"
  | value _ => "ValueError"
  | failure _ => "RuntimeError"

def location? : Fault → Option Location
  | notFound l | isDirectory l | notDirectory l => some l
  | _ => none

/-- The message, or the kind of fault where there is no message. -/
def explanation (f : Fault) : String :=
  if f.message.isEmpty then f.kindName else f.message

/-- The fault as a value on one line. -/
def display (f : Fault) : String :=
  f.kindName ++ "(" ++ Text.quote f.message ++ ")"

end Fault

/-- How an action can end without a result. -/
inductive Raised where
  | fault (fault : Fault)
  /-- The user pressed the interrupt key. -/
  | interrupt
  | cancelled
deriving DecidableEq, Repr

/-- Runs an action and gives its ending as a value, in whatever state it ended. -/
def attempt {ε ε' σ α : Type} (action : EStateM ε σ α) : EStateM ε' σ (Except ε α) := fun s =>
  match action s with
  | .ok a s' => .ok (.ok a) s'
  | .error e s' => .ok (.error e) s'

/-- Lets the faults of an action out. -/
def raising {σ α : Type} (action : EStateM Fault σ α) : EStateM Raised σ α := fun s =>
  match action s with
  | .ok a s' => .ok a s'
  | .error f s' => .error (.fault f) s'

end MemShell
