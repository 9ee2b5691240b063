import MemShell.Command

/-!
# Commands that do nothing

`true` succeeds, `false` fails, and `sleep` waits. Waiting takes no time here:
the host notes how long it should have taken. What matters to the shell is that
a wait can be cut short: if a signal is watched and it is up, or goes up because
the command starts to wait, `sleep` ends as interrupted. A wait of no time is
over before the signal is looked at.
-/

namespace MemShell.Builtin

variable {σ : Type}

def succeed : Outcome := {}

def fail : Outcome := { status := 1 }

/-- Lets a command wait: a signal that answers to waiting goes up, and the wait
is noted. Gives whether a watched signal is up. -/
def waitFor (seconds : Numeral.Decimal) : HostM Fault σ Bool := do
  let h ← get
  let signal := h.signal.map fun s => { s with raised := s.raised || s.onWait }
  set { h with signal, notes := h.notes.push (.waited seconds) }
  return signal.any Signal.raised

def sleep (args : List String) : HostM Fault σ Outcome :=
  match args with
  | [arg] =>
      match Numeral.readDecimal? arg with
      | none => return .failed ("sleep: invalid time interval '" ++ arg ++ "'\n")
      | some seconds => do
          let interrupted ← waitFor seconds
          if interrupted && seconds.waits then
            return .failedWith Outcome.interruptedStatus "sleep: interrupted\n"
          else return {}
  | _ => return .failed "sleep: usage: sleep SECONDS\n"

end MemShell.Builtin
