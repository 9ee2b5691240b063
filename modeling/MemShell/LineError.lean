import MemShell.Token

/-!
# Errors in a line

A line can fail to be split into tokens, a reference in it can be left open,
and its tokens can fail to form commands. Each failure is a value, and the
wording is in one place.
-/

namespace MemShell

/-- Why a line cannot be split into tokens. -/
inductive LexError where
  /-- A single `&` outside quotes. -/
  | loneAmpersand
  /-- The line ends inside quotes. -/
  | openQuote
deriving DecidableEq, Repr

/-- Why tokens do not form commands. -/
inductive ParseError where
  /-- A command name must stand here; `found` is what stands there instead,
  `none` for the end of the line. -/
  | noCommand (found : Option TokenKind)
  /-- A redirection has no file name. -/
  | noFile
deriving DecidableEq, Repr

/-- Why a line has no command trees. -/
inductive LineError where
  | lexical (error : LexError)
  /-- A reference in braces is not closed. -/
  | openReference
  | parse (error : ParseError)
deriving DecidableEq, Repr

def LexError.message : LexError → String
  | loneAmpersand => "unsupported operator '&' (background jobs are not supported)"
  | openQuote => "unterminated string"

def ParseError.message : ParseError → String
  | noCommand found =>
      "expected command name but got " ++ (found.map TokenKind.name).getD "end of input"
  | noFile => "expected filename for redirection"

def LineError.message : LineError → String
  | lexical error => error.message
  | openReference => "unterminated variable expansion"
  | parse error => error.message

end MemShell
