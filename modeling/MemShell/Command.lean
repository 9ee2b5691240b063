import MemShell.Outcome
import MemShell.Registry
import MemShell.Storage

/-!
# Commands

A command is given its arguments, the context it runs in and a catalogue of the
commands there are. It may act on the host, and it ends with an outcome, with no
usable outcome at all, or by raising something.

A command sees the session through the context only, and the context is a copy:
the one way for a command to change the session is to ask for changes in its
outcome.
-/

namespace MemShell

/-- What a command can see, the file store apart. -/
structure View where
  stdin : String := ""
  env : Table String String := ∅
  /-- The aliases, if there is a session. -/
  aliases : Option (Table String String) := none
  /-- The lines entered so far, if there is a session. -/
  history : Option (List String) := none
deriving DecidableEq

/-- What a command can see and use. -/
structure Context (σ : Type) extends View where
  /-- The file store, if there is one. -/
  storage : Option (Storage σ) := none

namespace Context

variable {σ : Type}

/-- The absolute form of a path seen from the working directory. -/
def resolve (ctx : Context σ) (path : String) : String :=
  resolvePath ctx.env path

/-- What is said where a file store is needed and there is none. -/
def noStorage : String := "no filesystem available"

/-- The contents of a file named on the command line. -/
def readFile (ctx : Context σ) (name : String) : HostM Fault σ String :=
  match ctx.storage with
  | none => throw (.failure noStorage)
  | some storage => storage.read (ctx.resolve name)

end Context

/-- A command with all that it is given. -/
structure Call (σ : Type) where
  args : List String
  context : Context σ
  /-- The names of all commands. -/
  catalogue : Registry Unit

/-- A command. It may end without a usable outcome. -/
abbrev Command (σ : Type) := Call σ → HostM Raised σ (Option Outcome)

namespace Command

variable {σ : Type}

/-- The command that only computes. -/
def pure (f : Call σ → Outcome) : Command σ :=
  fun call => return some (f call)

/-- The command whose faults go to whoever runs it. -/
def ofHost (f : Call σ → HostM Fault σ Outcome) : Command σ :=
  fun call => some <$> raising (f call)

end Command

end MemShell
