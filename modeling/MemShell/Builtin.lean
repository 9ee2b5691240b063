import MemShell.Builtin.Environment
import MemShell.Builtin.History
import MemShell.Builtin.Naming
import MemShell.Builtin.Printing
import MemShell.Builtin.Waiting

/-!
# The core commands

The registry that a session starts with. `source` and `exit` have a second name.
-/

namespace MemShell.Builtin

variable {σ : Type}

/-- The core commands under their names. -/
def core : List (List String × Command σ) :=
  [(["echo"], .pure fun call => echo call.args),
   (["cat"], .ofHost fun call => cat call.args call.context),
   (["wc"], .ofHost fun call => wc call.args call.context),
   (["true"], .pure fun _ => succeed),
   (["false"], .pure fun _ => fail),
   (["sleep"], .ofHost fun call => sleep call.args),
   (["pwd"], .pure fun call => pwd call.context),
   (["cd"], .ofHost fun call => cd call.args call.context),
   (["env"], .pure fun call => printEnv call.context),
   (["export"], .pure fun call => exportVars call.args call.context),
   (["unset"], .pure fun call => unsetVars call.args),
   (["alias"], .pure fun call => defineAliases call.args call.context),
   (["unalias"], .pure fun call => removeAliases call.args call.context),
   (["history"], .ofHost fun call => history call.args call.context),
   (["source", "."], .ofHost fun call => source call.args call.context),
   (["exit", "quit"], .pure fun call => exit call.args),
   (["type"], .pure describe)]

def registry : Registry (Command σ) :=
  core.foldl (fun r (names, command) => r.addAll names command) {}

end MemShell.Builtin
