import MemShell.Text.Quoted

/-!
# Tokens of a line

A line is a list of tokens. A token that carries text says how it was quoted,
because expansion treats the three ways differently; an operator carries its
own spelling.

Three questions are asked of a kind: whether it can be a command name, an
argument or a file name (`isText`), whether it ends one command so that the
next may start (`isBoundary`), and whether it sends output to a file
(`isRedirection`). Every kind answers exactly one of them with yes.
-/

namespace MemShell

/-- What a token is. -/
inductive TokenKind where
  | word
  | doubleQuoted
  | singleQuoted
  | pipe
  | and
  | or
  | redirect
  | append
  | semicolon
deriving DecidableEq, Repr

namespace TokenKind

def name : TokenKind → String
  | word => "word"
  | doubleQuoted => "dstring"
  | singleQuoted => "sstring"
  | pipe => "pipe"
  | and => "and"
  | or => "or"
  | redirect => "redirect"
  | append => "append"
  | semicolon => "semicolon"

/-- Kinds that can be a command name, an argument or a file name. -/
def isText : TokenKind → Bool
  | word | doubleQuoted | singleQuoted => true
  | _ => false

/-- Operators that end one command and let the next one start. -/
def isBoundary : TokenKind → Bool
  | pipe | and | or | semicolon => true
  | _ => false

/-- Operators that send output to a file. -/
def isRedirection : TokenKind → Bool
  | redirect | append => true
  | _ => false

end TokenKind

/-- A token: what it is and the text it carries. -/
structure Token where
  kind : TokenKind
  value : String
deriving DecidableEq, Repr

namespace Token

/-- Shows a token with its text quoted. -/
def display (t : Token) : String :=
  "Token(" ++ t.kind.name ++ ", " ++ Text.quote t.value ++ ")"

/-- Shows a token as kind and text. -/
def brief (t : Token) : String :=
  t.kind.name ++ ":" ++ t.value

/-- Shows a list of tokens on one line. -/
def briefList (ts : List Token) : String :=
  if ts.isEmpty then "<empty>" else " ".intercalate (ts.map brief)

end Token

end MemShell
