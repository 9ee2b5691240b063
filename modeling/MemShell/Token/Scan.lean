import MemShell.LineError
import MemShell.Text.Blank
import MemShell.Transducer

/-!
# Splitting a line into tokens

The line is read one character at a time by a transducer whose states are what
a reader has to remember: that nothing is open, that the first half of an
operator was seen, the word read so far, the quoted text read so far.

* Blanks separate tokens. The operators are `|`, `||`, `&&`, `>`, `>>` and `;`,
  and the longer one wins, so an operator character that could be doubled waits
  for the next character.
* A token that starts with a quote ends with the same quote. Inside double
  quotes a backslash escapes a double quote or a backslash; before anything
  else, and everywhere else, it is an ordinary character.
* Quotes inside a word hide blanks and operators but belong to the word's text,
  as do the backslashes in them: the word is its spelling, character for
  character.

Text read so far is kept last character first.

## Main results

* `Scan.step_idle_blank` — a blank between tokens changes nothing.
-/

namespace MemShell.Token.Scan

open MemShell.Text

/-- The two kinds of quotes. -/
inductive Quote where
  | single
  | double
deriving DecidableEq, Repr

namespace Quote

/-- The character that opens and closes the quotes. -/
def mark : Quote → Char
  | single => '\''
  | double => '"'

/-- The kind of a token that stands between these quotes. -/
def kind : Quote → TokenKind
  | single => .singleQuoted
  | double => .doubleQuoted

end Quote

/-- The quotes that a character opens, if it is a quote. -/
def quoteOf? (c : Char) : Option Quote :=
  if c = '"' then some .double else if c = '\'' then some .single else none

/-- Characters that end a word and start an operator. -/
def isOperatorChar (c : Char) : Bool :=
  c = '|' || c = '&' || c = '>' || c = ';'

/-- What the scanner remembers. -/
inductive Mode where
  /-- Between tokens. -/
  | idle
  /-- After one `|`. -/
  | bar
  /-- After one `&`. -/
  | ampersand
  /-- After one `>`. -/
  | angle
  /-- In a word. -/
  | word (read : List Char)
  /-- In quotes, which stand inside a word or are a token of their own. -/
  | quoted (inWord : Bool) (quote : Quote) (read : List Char)
  /-- After a backslash in double quotes. -/
  | escape (inWord : Bool) (read : List Char)
deriving DecidableEq, Repr

/-- The token for a word read last character first. -/
def ofWord (read : List Char) : Token :=
  ⟨.word, String.ofList read.reverse⟩

/-- What a character does between tokens. -/
def start (c : Char) : List Token × Mode :=
  if isBlank c then ([], .idle)
  else if c = '|' then ([], .bar)
  else if c = '&' then ([], .ampersand)
  else if c = '>' then ([], .angle)
  else if c = ';' then ([⟨.semicolon, ";"⟩], .idle)
  else
    match quoteOf? c with
    | some q => ([], .quoted false q [])
    | none => ([], .word [c])

/-- `start` after a token has ended. -/
def startAfter (t : Token) (c : Char) : List Token × Mode :=
  (t :: (start c).1, (start c).2)

def step : Mode → Char → Except LexError (List Token × Mode)
  | .idle, c => .ok (start c)
  | .bar, c => .ok (if c = '|' then ([⟨.or, "||"⟩], .idle) else startAfter ⟨.pipe, "|"⟩ c)
  | .ampersand, c => if c = '&' then .ok ([⟨.and, "&&"⟩], .idle) else .error .loneAmpersand
  | .angle, c => .ok (if c = '>' then ([⟨.append, ">>"⟩], .idle) else startAfter ⟨.redirect, ">"⟩ c)
  | .word read, c =>
      if isBlank c || isOperatorChar c then .ok (startAfter (ofWord read) c)
      else
        match quoteOf? c with
        | some q => .ok ([], .quoted true q (c :: read))
        | none => .ok ([], .word (c :: read))
  | .quoted inWord q read, c =>
      if c = q.mark then
        if inWord then .ok ([], .word (c :: read))
        else .ok ([⟨q.kind, String.ofList read.reverse⟩], .idle)
      else if q = .double ∧ c = '\\' then .ok ([], .escape inWord read)
      else .ok ([], .quoted inWord q (c :: read))
  | .escape inWord read, c =>
      if (c = '"' ∨ c = '\\') ∧ inWord = false then .ok ([], .quoted inWord .double (c :: read))
      else .ok ([], .quoted inWord .double (c :: '\\' :: read))

/-- What is still to be given out at the end of the line. -/
def finish : Mode → Except LexError (List Token)
  | .idle => .ok []
  | .bar => .ok [⟨.pipe, "|"⟩]
  | .ampersand => .error .loneAmpersand
  | .angle => .ok [⟨.redirect, ">"⟩]
  | .word read => .ok [ofWord read]
  | .quoted .. => .error .openQuote
  | .escape .. => .error .openQuote

def scanner : Transducer Mode Char Token LexError where
  step := step
  finish := finish

theorem step_idle_blank {c : Char} (h : isBlank c = true) : step .idle c = .ok ([], .idle) := by
  simp [step, start, h]

end MemShell.Token.Scan

namespace MemShell.Token

open MemShell.Text

def scan (cs : List Char) : Except LexError (List Token) :=
  Scan.scanner.run .idle cs

def tokenize (line : String) : Except LexError (List Token) :=
  scan line.toList

end MemShell.Token
