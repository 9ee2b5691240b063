import MemShell.Cli

/-!
# The command line

The outer layer: it reads the settings from the environment and the lines from
standard input, and carries out the writes of the program. All decisions are made
in `MemShell.Cli`.
-/

namespace MemShell.Main

open MemShell.Cli

/-- What runs wait with here, by its name in the log. -/
def selector : String := "EpollSelector"

/-- The longest pause that is made, in milliseconds. -/
def longestPause : Nat := 1 <<< 31

def carryOut : Write → IO Unit
  | .out text => do
      let stdout ← IO.getStdout
      stdout.putStr text
      stdout.flush
  | .err text => do
      let stderr ← IO.getStderr
      stderr.putStr text
      stderr.flush
  | .pause seconds => IO.sleep (seconds.milliseconds longestPause).toUInt32

/-- A line of input without its line feed; `none` at the end of the input. -/
def nextLine? : IO (Option String) := do
  let line ← (← IO.getStdin).getLine
  if line.isEmpty then return none
  return some (if line.endsWith "\n" then (line.dropEnd 1).toString else line)

/-- The prompt loop over standard input. -/
partial def converse (threshold : Nat) (prompt : String) (p : Prompt FileTree) :
    IO (Prompt FileTree) := do
  if p.isOver then return p
  carryOut (.out prompt)
  match ← nextLine? with
  | none =>
      carryOut (.out "\n")
      return p
  | some line =>
      let (writes, p') := p.respond shell threshold (.line line)
      writes.forM carryOut
      converse threshold prompt p'

/-- The status that a process can end with: the last eight bits, if the status is
a machine word at all. -/
def processStatus (code : Int) : UInt32 :=
  if code.natAbs < 1 <<< 63 then (code % 256).toNat.toUInt32 else 255

end MemShell.Main

open MemShell MemShell.Cli MemShell.Main in
/-- Runs the program on the arguments of the process. -/
def main (args : List String) : IO UInt32 := do
  let settings : Settings :=
    { prompt := ← IO.getEnv "TRONSH_PROMPT"
      logLevel := ← IO.getEnv "TRONSH_LOG_LEVEL"
      home := ← IO.getEnv "TRONSH_HOME"
      selector := some selector }
  match readArgs args with
  | .ok (.run { command := none, parse := none, noProfile, debug }) =>
      let (writes, p) := begin settings { noProfile, debug }
      writes.forM carryOut
      let last ← converse (threshold debug settings.logLevel)
        (settings.prompt.getD "tronsh> ") p
      return processStatus last.code
  | _ =>
      match program args settings [] with
      | none => return 1
      | some report =>
          report.writes.forM carryOut
          return processStatus report.code
