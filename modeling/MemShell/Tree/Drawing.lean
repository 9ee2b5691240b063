import MemShell.Tree

/-!
# Drawings of command trees

`draw` shows how a line was grouped, one node a line, each level two blanks
further in. `display` shows a tree as a value on one line, as the log does.
-/

namespace MemShell

def Redirect.display (r : Redirect) : String :=
  "Redirect(kind=" ++ Text.quote r.kind.name ++ ", file=" ++ Text.quote r.file ++ ")"

def Simple.display (c : Simple) : String :=
  "SimpleCommand(command=" ++ Text.quote c.command ++ ", args=" ++ Text.quoteList c.args ++
    ", redirects=" ++ Text.bracketed (c.redirects.map Redirect.display) ++ ")"

/-- The lines of a command, `pad` in front of each. -/
def Simple.draw (pad : String) (c : Simple) : List String :=
  (pad ++ "CMD  " ++ " ".intercalate (c.command :: c.args)) ::
    c.redirects.map fun r => pad ++ "  REDIR " ++ r.kind.operator ++ " " ++ r.file

namespace Tree

def display : Tree → String
  | simple c => c.display
  | pipeline stages => "Pipeline(stages=" ++ Text.bracketed (stages.map Simple.display) ++ ")"
  | logical left connective right =>
      "LogicalSequence(left=" ++ left.display ++ ", operator=" ++ Text.quote connective.name ++
        ", right=" ++ right.display ++ ")"

/-- The lines of a tree, `pad` in front of each. -/
def draw (pad : String) : Tree → List String
  | simple c => c.draw pad
  | pipeline stages => (pad ++ "PIPE") :: stages.flatMap (Simple.draw (pad ++ "  "))
  | logical left connective right =>
      (pad ++ match connective with | .and => "AND" | .or => "OR") ::
        (left.draw (pad ++ "  ") ++ right.draw (pad ++ "  "))

def drawing (trees : List Tree) : String :=
  if trees.isEmpty then "<empty>" else "\n".intercalate (trees.flatMap (draw ""))

end Tree

end MemShell
