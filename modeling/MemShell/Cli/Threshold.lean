/-!
# The threshold of the log

The log shows records from a threshold on. The threshold is named by one of the
usual names of levels, in any case, and is that of warnings if the name is none
of them. Two letters outside ASCII have an ASCII letter as their capital, the
dotless i and the long s, so they count as that letter.
-/

namespace MemShell.Cli

/-- The capital of a letter, as far as it can matter for the name of a level. -/
def capital (c : Char) : Char :=
  if c = 'ı' then 'I' else if c = 'ſ' then 'S' else c.toUpper

/-- The rank of a level, by its name in capitals. -/
def rankOfName? : String → Option Nat
  | "CRITICAL" | "FATAL" => some 50
  | "ERROR" => some 40
  | "WARNING" | "WARN" => some 30
  | "INFO" => some 20
  | "DEBUG" => some 10
  | "NOTSET" => some 0
  | _ => none

/-- The rank from which on records are shown. -/
def threshold (debug : Bool) (name : Option String) : Nat :=
  if debug then 10
  else (rankOfName? (String.ofList ((name.getD "WARNING").toList.map capital))).getD 30

end MemShell.Cli
