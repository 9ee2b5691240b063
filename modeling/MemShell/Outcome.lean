import MemShell.Changes
import MemShell.Text.Blank

/-!
# What a command and a line give back

A command gives back two texts, a status and the changes it asks for; a line
gives back the texts and the status only, because its changes have been made by
then. Status zero means success.
-/

namespace MemShell

/-- The visible result of a line. -/
structure Output where
  stdout : String := ""
  stderr : String := ""
  status : Int := 0
deriving DecidableEq, Repr

/-- Adds what came later to what was printed before; the later status counts. -/
def Output.followedBy (a b : Output) : Output :=
  ⟨a.stdout ++ b.stdout, a.stderr ++ b.stderr, b.status⟩

/-- The result of a command. -/
structure Outcome where
  stdout : String := ""
  stderr : String := ""
  status : Int := 0
  changes : Changes := {}
deriving DecidableEq

namespace Outcome

instance : Inhabited Outcome := ⟨{}⟩

/-- The status of a command that cannot be found. -/
def notFoundStatus : Int := 127

/-- The status of a line that was interrupted. -/
def interruptedStatus : Int := 130

def ok (o : Outcome) : Bool :=
  o.status == 0

/-- A success that prints a text. -/
def printed (text : String) : Outcome :=
  { stdout := text }

/-- A success that asks for changes. -/
def changing (changes : Changes) : Outcome :=
  { changes }

/-- A failure with a message and a status of its own. -/
def failedWith (status : Int) (message : String) : Outcome :=
  { stderr := message, status }

def failed (message : String) : Outcome :=
  failedWith 1 message

/-- The result of a tree that was interrupted. -/
def interrupted (changes : Changes) : Outcome :=
  { stderr := "interrupted\n", status := interruptedStatus, changes }

/-- A result that collects messages: it fails if there is any. -/
def withErrors (stdout : String) (errors : List String) (changes : Changes) : Outcome :=
  { stdout
    stderr := Text.asLines errors
    status := if errors.isEmpty then 0 else 1
    changes }

/-- The visible part of a result. -/
def output (o : Outcome) : Output :=
  { stdout := o.stdout, stderr := o.stderr, status := o.status }

end Outcome

end MemShell
