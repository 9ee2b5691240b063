import MemShell.Command
import MemShell.Numeral.Integer
import MemShell.Text.Digit

/-!
# Commands for the course of a session

`history` prints the lines entered so far, `source` asks for the lines of a file
to be run, and `exit` asks to leave.
-/

namespace MemShell.Builtin

variable {σ : Type}

def isDigits (s : String) : Bool :=
  !s.toList.isEmpty && s.toList.all Text.isDigit

/-- A number right-aligned in six columns. -/
def pad6 (n : Nat) : String :=
  let digits := toString n
  String.ofList (List.replicate (6 - digits.length) ' ') ++ digits

/-- The last `count` entries with their numbers. -/
def historyLines (entries : List String) (count : Nat) : List String :=
  let numbered := entries.zipIdx.map fun (entry, i) => pad6 (i + 1) ++ "  " ++ entry
  numbered.drop (entries.length - count)

/-- Prints the lines entered so far, or the last few of them. A text can be made
of digits and still not be a number; that is a fault. -/
def history (args : List String) (ctx : Context σ) : HostM Fault σ Outcome := do
  let entries := ctx.history.getD []
  match args with
  | [] => return .printed (Text.asLines (historyLines entries entries.length))
  | arg :: _ =>
      if !isDigits arg then
        return .failed ("history: invalid argument '" ++ arg ++ "'\n")
      match Numeral.readInt arg with
      | .error e => throw (.value e.message)
      | .ok count => return .printed (Text.asLines (historyLines entries count.toNat))

/-- Whether a line has a command on it: it is neither blank nor a comment. -/
def hasCommand (line : String) : Bool :=
  match Text.trim line.toList with
  | [] => false
  | c :: _ => c ≠ '#'

/-- The lines of a text that have a command on them. -/
def commandLines (text : String) : List String :=
  (Text.split '\n' text).filter hasCommand

/-- Asks for the lines of a file to be run. -/
def source (args : List String) (ctx : Context σ) : HostM Fault σ Outcome := do
  match args with
  | [] => return .failed "source: missing file operand\n"
  | name :: _ =>
      match ← attempt (ctx.readFile name) with
      | .error fault => return .failed ("source: " ++ name ++ ": " ++ fault.message ++ "\n")
      | .ok content => return .changing { sourceLines := commandLines content }

/-- Asks to leave the session with a status, zero if none is given. -/
def exit (args : List String) : Outcome :=
  match args with
  | [] => { changes := { exitCode := some 0 } }
  | arg :: _ =>
      match Numeral.readInt arg with
      | .ok status => { status, changes := { exitCode := some status } }
      | .error _ => .failedWith 2 ("exit: " ++ arg ++ ": numeric argument required\n")

end MemShell.Builtin
