import MemShell.Command

/-!
# Commands that print and count text

`echo` prints its arguments, `cat` prints files, `wc` counts lines, words and
characters. A file that cannot be read costs one message; the others are still
printed or counted, and the status says that something failed.
-/

namespace MemShell.Builtin

variable {σ : Type}

/-! ## `echo` -/

/-- The character that a letter stands for after a backslash. -/
def escaped? : Char → Option Char
  | 'n' => some '\n'
  | 't' => some '\t'
  | 'r' => some '\r'
  | '\\' => some '\\'
  | 'a' => some '\x07'
  | 'b' => some '\x08'
  | 'v' => some '\x0b'
  | 'f' => some '\x0c'
  | _ => none

/-- Replaces backslash escapes; a backslash before any other letter stays. -/
def unescape : List Char → List Char
  | [] => []
  | [c] => [c]
  | c :: d :: cs =>
      match if c = '\\' then escaped? d else none with
      | some e => e :: unescape cs
      | none => c :: unescape (d :: cs)

/-- How `echo` prints. -/
structure EchoStyle where
  newline : Bool := true
  escapes : Bool := false

/-- Splits the options of `echo` from the words: options come first, and the last
one of a kind counts. -/
def echoOptions (style : EchoStyle) : List String → EchoStyle × List String
  | "-n" :: args => echoOptions { style with newline := false } args
  | "-e" :: args => echoOptions { style with escapes := true } args
  | "-E" :: args => echoOptions { style with escapes := false } args
  | args => (style, args)

/-- Prints the arguments, separated by blanks. -/
def echo (args : List String) : Outcome :=
  let (style, words) := echoOptions {} args
  let shown :=
    if style.escapes then words.map fun w => String.ofList (unescape w.toList) else words
  let text := " ".intercalate shown
  .printed (if style.newline then text ++ "\n" else text)

/-! ## `cat` -/

/-- Texts and messages collected from several files, in order. -/
structure Collected (α : Type) where
  items : List α
  errors : List String

/-- Reads the files of a list one after the other; what cannot be read becomes a
message that starts with the command's name. -/
def readFiles {α : Type} (command : String) (read : String → HostM Fault σ α) :
    List String → HostM Fault σ (Collected α)
  | [] => return ⟨[], []⟩
  | name :: names => do
      let first ← attempt (read name)
      let rest ← readFiles command read names
      match first with
      | .ok item => return { rest with items := item :: rest.items }
      | .error fault =>
          let message := command ++ ": " ++ name ++ ": " ++ fault.message
          return { rest with errors := message :: rest.errors }

/-- Prints files; a dash, or no argument at all, is the input. -/
def cat (args : List String) (ctx : Context σ) : HostM Fault σ Outcome := do
  if args.isEmpty then return .printed ctx.stdin
  let read := fun name => if name = "-" then Pure.pure ctx.stdin else ctx.readFile name
  let files ← readFiles "cat" read args
  return .withErrors (String.join files.items) files.errors {}

/-! ## `wc` -/

/-- Numbers of lines, words and characters. -/
structure Counts where
  lines : Nat
  words : Nat
  chars : Nat
deriving DecidableEq, Repr

namespace Counts

/-- Counts a text. A line is counted where it ends. -/
def ofText (text : String) : Counts :=
  ⟨text.toList.count '\n', (Text.words text.toList).length, text.length⟩

def zero : Counts := ⟨0, 0, 0⟩

def add (a b : Counts) : Counts :=
  ⟨a.lines + b.lines, a.words + b.words, a.chars + b.chars⟩

/-- Counts of several texts, added up. -/
def total (counts : List Counts) : Counts :=
  counts.foldl add zero

end Counts

/-- Which counts are shown. -/
structure Columns where
  lines : Bool := false
  words : Bool := false
  chars : Bool := false
deriving DecidableEq, Repr

namespace Columns

def all : Columns := ⟨true, true, true⟩

/-- Adds the column of a letter, if it is one. -/
def add? (c : Columns) : Char → Option Columns
  | 'l' => some { c with lines := true }
  | 'w' => some { c with words := true }
  | 'c' => some { c with chars := true }
  | _ => none

/-- Adds the columns of a list of letters; gives the first letter that is none. -/
def addLetters (c : Columns) : List Char → Except Char Columns
  | [] => .ok c
  | letter :: letters =>
      match c.add? letter with
      | some c' => addLetters c' letters
      | none => .error letter

/-- The columns to show when these were asked for: none means all. -/
def orAll (c : Columns) : Columns :=
  if c = {} then all else c

/-- One row: the shown counts and a label, separated by blanks. -/
def row (c : Columns) (counts : Counts) (label : String) : String :=
  " ".intercalate
    ((if c.lines then [toString counts.lines] else []) ++
      (if c.words then [toString counts.words] else []) ++
      (if c.chars then [toString counts.chars] else []) ++
      (if label.isEmpty then [] else [label]))

/-- One row for each file, and one with the totals if there are several. -/
def rows (c : Columns) (files : List (Counts × String)) : List String :=
  files.map (fun (counts, name) => c.row counts name) ++
    if 1 < files.length then [c.row (.total (files.map Prod.fst)) "total"] else []

end Columns

/-- The letter of a long option of `wc`. -/
def wcLong? : String → Option Char
  | "--lines" => some 'l'
  | "--words" => some 'w'
  | "--bytes" => some 'c'
  | "--chars" => some 'c'
  | _ => none

/-- Splits the options of `wc` from the names; options may stand anywhere. -/
def wcOptions (columns : Columns) : List String → Except Char (Columns × List String)
  | [] => .ok (columns, [])
  | arg :: args =>
      let letters :=
        match wcLong? arg, arg.toList with
        | some letter, _ => [letter]
        | none, '-' :: letters => letters
        | none, _ => []
      if letters.isEmpty then
        (wcOptions columns args).map fun (c, names) => (c, arg :: names)
      else
        match columns.addLetters letters with
        | .ok c => wcOptions c args
        | .error letter => .error letter

/-- Counts the input, or files with a total if there are several. -/
def wc (args : List String) (ctx : Context σ) : HostM Fault σ Outcome := do
  match wcOptions {} args with
  | .error letter => return .failed ("wc: invalid option -- '" ++ letter.toString ++ "'\n")
  | .ok (asked, names) =>
      let columns := asked.orAll
      if names.isEmpty then
        return .printed (columns.row (.ofText ctx.stdin) "" ++ "\n")
      let read := fun name => do
        let text ← ctx.readFile name
        return (Counts.ofText text, name)
      let files ← readFiles "wc" read names
      return .withErrors (Text.asLines (columns.rows files.items)) files.errors {}

end MemShell.Builtin
