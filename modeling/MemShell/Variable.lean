import MemShell.LineError
import MemShell.Table
import MemShell.Transducer

/-!
# References to variables

A text is read once into pieces, and only then are the references among them
looked up. The reading does not see the environment: what is a reference is
decided by the text alone, and a value that is filled in is never read again.

* `$` and the longest run of letters, digits and underscores after it is a
  reference to that name.
* `${name}` runs to the first closing brace; whatever stands between the braces
  is the name, and without a closing brace the text is refused.
* `$?` is the status of the last command.
* Any other `$` is an ordinary character.

A name that has no value stands for the empty text.

A piece has a spelling, as it was written, and a value, as it is filled in.
Expansion is the concatenation of the values of the pieces.
-/

namespace MemShell

/-- A part of a text: a character, or a reference. -/
inductive Piece where
  /-- A character that stands for itself. -/
  | literal (c : Char)
  /-- A name in braces. -/
  | braced (name : List Char)
  /-- The status of the last command. -/
  | status
  /-- A bare name. -/
  | named (name : List Char)
  /-- A `$` that starts no reference. -/
  | dollar
deriving DecidableEq, Repr

namespace Piece

/-- Characters of a bare name. -/
def isNameChar (c : Char) : Bool :=
  c = '_' || ('a' ≤ c && c ≤ 'z') || ('A' ≤ c && c ≤ 'Z') || ('0' ≤ c && c ≤ '9')

/-- The piece as it was written. -/
def spelling : Piece → List Char
  | literal c => [c]
  | braced name => '$' :: '\x7b' :: name ++ ['\x7d']
  | status => ['$', '?']
  | named name => '$' :: name
  | dollar => ['$']

/-- The name that a piece refers to. -/
def reference? : Piece → Option String
  | braced name | named name => some (String.ofList name)
  | status => some "?"
  | literal _ | dollar => none

/-- The text that a piece stands for. -/
def value (env : Table String String) (p : Piece) : String :=
  match p.reference? with
  | some name => (env.get? name).getD ""
  | none => String.ofList p.spelling

/-- What the reader of pieces remembers; names are kept last character first. -/
inductive Mode where
  /-- Nothing is open. -/
  | text
  /-- After a `$`. -/
  | dollar
  /-- In a bare name. -/
  | name (read : List Char)
  /-- In braces. -/
  | braced (read : List Char)
deriving DecidableEq, Repr

/-- What a character does when nothing is open. -/
def start (c : Char) : List Piece × Mode :=
  if c = '$' then ([], .dollar) else ([.literal c], .text)

/-- `start` after a piece has ended. -/
def startAfter (p : Piece) (c : Char) : List Piece × Mode :=
  (p :: (start c).1, (start c).2)

def step : Mode → Char → List Piece × Mode
  | .text, c => start c
  | .dollar, c =>
      if c = '\x7b' then ([], .braced [])
      else if c = '?' then ([status], .text)
      else if isNameChar c then ([], .name [c])
      else startAfter dollar c
  | .name read, c =>
      if isNameChar c then ([], .name (c :: read)) else startAfter (named read.reverse) c
  | .braced read, c =>
      if c = '\x7d' then ([braced read.reverse], .text) else ([], .braced (c :: read))

/-- What is still to be given out at the end of the text. -/
def finish : Mode → Except LineError (List Piece)
  | .text => .ok []
  | .dollar => .ok [dollar]
  | .name read => .ok [named read.reverse]
  | .braced _ => .error .openReference

def reader : Transducer Mode Char Piece LineError where
  step := fun m c => .ok (step m c)
  finish := finish

def ofText (text : String) : Except LineError (List Piece) :=
  reader.run .text text.toList

end Piece

/-- Fills in the references of a text. -/
def expandText (env : Table String String) (text : String) : Except LineError String :=
  (Piece.ofText text).map fun pieces => String.join (pieces.map (Piece.value env))

/-- Fills in the references of a token. Single quotes keep their text as it is. -/
def Token.expandVariables (env : Table String String) (t : Token) : Except LineError Token :=
  match t.kind with
  | .word | .doubleQuoted => (expandText env t.value).map (⟨t.kind, ·⟩)
  | _ => .ok t

/-- Fills in the references of all tokens. -/
def Token.expandVariablesList (env : Table String String) (ts : List Token) :
    Except LineError (List Token) :=
  ts.mapM (Token.expandVariables env)

end MemShell
