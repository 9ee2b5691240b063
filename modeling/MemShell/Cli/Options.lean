import MemShell.Text.Blank
import MemShell.Text.Digit
import MemShell.Text.Quoted

/-!
# The arguments of the program

The arguments are read in two passes. The first looks at each argument by
itself and tells options from plain text; it alone knows that a long option may
be shortened as long as it stays clear which one is meant. The second goes from
left to right and gives options their values. Whatever is left over is an error,
but only at the end: a request for help that comes first is answered first.

* The value of an option is attached to it (`--parse=LINE`, `-cLINE`, `-c=LINE`)
  or is the next argument, if that is plain.
* What is attached to `-h` is read as letters of further short options, as in `-hc`.
* A separator attached as a value is dropped, so that the option has no text.
* Text that starts with a dash is plain if it is the dash alone, if it is a
  negative number, or if it has a blank in it and starts no option.
* After `--` every argument is plain, but none of them has a use.
-/

namespace MemShell.Cli

/-- The options of the program. -/
inductive Switch where
  | help
  | command
  | parse
  | noProfile
  | debug
deriving DecidableEq, Repr

namespace Switch

/-- The spellings of the options, in the order in which they are matched. -/
def spellings : List (String × Switch) :=
  [("-h", help), ("--help", help), ("--command", command), ("-c", command),
   ("--parse", parse), ("--no-profile", noProfile), ("--debug", debug)]

/-- How an option is named in messages. -/
def name : Switch → String
  | help => "-h/--help"
  | command => "--command/-c"
  | parse => "--parse"
  | noProfile => "--no-profile"
  | debug => "--debug"

/-- Whether an option has a value. -/
def takesValue : Switch → Bool
  | command | parse => true
  | _ => false

/-- The option with exactly this spelling. -/
def ofSpelling? (s : String) : Option Switch :=
  (spellings.find? (·.1 = s)).map Prod.snd

end Switch

/-- Why the arguments cannot be used. -/
inductive UsageError where
  /-- A shortened option could be several. -/
  | ambiguous (arg : String) (matching : List String)
  /-- An option has no value. -/
  | noValue (switch : Switch)
  /-- An option without values was given one. -/
  | needlessValue (switch : Switch) (value : String)
  /-- Arguments that mean nothing. -/
  | unrecognized (args : List String)
deriving DecidableEq, Repr

def UsageError.message : UsageError → String
  | ambiguous arg matching =>
      "ambiguous option: " ++ arg ++ " could match " ++ ", ".intercalate matching
  | noValue switch => "argument " ++ switch.name ++ ": expected one argument"
  | needlessValue switch value =>
      "argument " ++ switch.name ++ ": ignored explicit argument " ++ Text.quote value
  | unrecognized args => "unrecognized arguments: " ++ " ".intercalate args

/-! ## One argument by itself -/

/-- A value attached to an option. -/
inductive Attached where
  | nothing
  /-- Written after a spelling with two dashes and an equals sign. -/
  | toLong (value : String)
  /-- Written after a dash and a letter, with or without an equals sign. -/
  | toShort (value : String)
deriving DecidableEq, Repr

/-- A value after a spelling and an equals sign. -/
def Attached.after (spelling value : String) : Attached :=
  if spelling.startsWith "--" then .toLong value else .toShort value

/-- What an argument is. -/
inductive Arg where
  | plain (text : String)
  /-- The argument after which all are plain. -/
  | separator
  | option (switch : Switch) (attached : Attached)
  /-- It looks like an option and is none. -/
  | unknown (text : String)
deriving DecidableEq, Repr

/-- Digits only, at least one, possibly with one line feed at the end. -/
def areDigits (cs : List Char) : Bool :=
  let digits := if cs.getLast? = some '\n' then cs.dropLast else cs
  !digits.isEmpty && digits.all fun c => (Text.decimalValue? c).isSome

/-- Whether a text is a negative number: digits, or a point among digits that is
not the last character. -/
def isNegativeNumber : List Char → Bool
  | '-' :: cs =>
      areDigits cs ||
        match Text.cutAt '.' cs with
        | some (whole, fraction) =>
            whole.all (fun c => (Text.decimalValue? c).isSome) && areDigits fraction
        | none => false
  | _ => false

/-- An argument that starts with two dashes and is no exact spelling: a shortened
option, with or without a value. -/
def classifyLong (arg : String) : Except UsageError (Option Arg) :=
  let (start, attached) : String × Attached :=
    match Text.cut '=' arg with
    | some (start, value) => (start, .toLong value)
    | none => (arg, .nothing)
  match Switch.spellings.filter fun s => start.toList.isPrefixOf s.1.toList with
  | [] => .ok none
  | [(_, switch)] => .ok (some (.option switch attached))
  | several => .error (.ambiguous arg (several.map Prod.fst))

/-- An argument that starts with one dash and is no exact spelling: a short option
with a value glued to it. -/
def classifyShort (cs : List Char) : Option Arg :=
  (Switch.ofSpelling? (String.ofList (cs.take 2))).map fun switch =>
    .option switch (.toShort (String.ofList (cs.drop 2)))

/-- An argument that starts no option. -/
def classifyOther (arg : String) : Arg :=
  if isNegativeNumber arg.toList || ' ' ∈ arg.toList then .plain arg else .unknown arg

/-- The option and value of an argument with an equals sign after an exact spelling. -/
def exactWithValue? (arg : String) : Option Arg :=
  (Text.cut '=' arg).bind fun (start, value) =>
    (Switch.ofSpelling? start).map fun switch => .option switch (.after start value)

def classify (arg : String) : Except UsageError Arg :=
  match arg.toList with
  | '-' :: c :: _ =>
      match Switch.ofSpelling? arg, exactWithValue? arg with
      | some switch, _ => .ok (.option switch .nothing)
      | none, some found => .ok found
      | none, none =>
          if c = '-' then (classifyLong arg).map (·.getD (classifyOther arg))
          else .ok ((classifyShort arg.toList).getD (classifyOther arg))
  | _ => .ok (.plain arg)

/-- Tells what all arguments are; after a separator all are plain. -/
def classifyAll : List String → Except UsageError (List Arg)
  | [] => .ok []
  | "--" :: args => .ok (.separator :: args.map .plain)
  | arg :: args => do
      let first ← classify arg
      let rest ← classifyAll args
      return first :: rest

/-! ## All arguments together -/

inductive Value where
  | line (text : String)
  /-- The value was a separator, and separators are dropped. -/
  | dropped
deriving DecidableEq, Repr

namespace Value

/-- The value that an argument stands for. -/
def ofText (text : String) : Value :=
  if text = "--" then dropped else line text

/-- The text of a value; a dropped one has none. -/
def text : Value → String
  | line text => text
  | dropped => ""

end Value

/-- What the arguments ask for. -/
structure Options where
  command : Option Value := none
  parse : Option Value := none
  noProfile : Bool := false
  debug : Bool := false
deriving DecidableEq, Repr

/-- What the program is to do. -/
inductive Request where
  | help
  | run (options : Options)
deriving DecidableEq, Repr

namespace Options

/-- Gives an option a value. The options without values take no notice of it. -/
def give (o : Options) (switch : Switch) (value : String) : Options :=
  match switch with
  | .command => { o with command := some (.ofText value) }
  | .parse => { o with parse := some (.ofText value) }
  | .noProfile => { o with noProfile := true }
  | .debug => { o with debug := true }
  | .help => o

end Options

/-- Checks what is attached to `-h`: letters of short options, the last of which
may have the rest as its value. `next` says whether a plain argument follows, as
the value of a `c` at the end. -/
def checkCluster (next : Bool) : List Char → Except UsageError Unit
  | ['h'] => .ok ()
  | 'h' :: cs => checkCluster next cs
  | ['c'] => if next then .ok () else .error (.noValue .command)
  | 'c' :: _ => .ok ()
  | cs => .error (.needlessValue .help (String.ofList cs))

/-- Whether a list of arguments starts with plain text. -/
def startsPlain : List Arg → Bool
  | .plain _ :: _ => true
  | _ => false

/-- Reads arguments from left to right. `strays` are those without a use so far. -/
def read (o : Options) (strays : List String) : List Arg → Except UsageError Request
  | [] => if strays.isEmpty then .ok (.run o) else .error (.unrecognized strays)
  | .plain text :: args => read o (strays ++ [text]) args
  | .separator :: args => read o (strays ++ ["--"]) args
  | .unknown text :: args => read o (strays ++ [text]) args
  | .option .help attached :: args =>
      match attached with
      | .nothing => .ok .help
      | .toLong value => .error (.needlessValue .help value)
      | .toShort value => (checkCluster (startsPlain args) value.toList).map fun _ => .help
  | .option switch .nothing :: .plain value :: args =>
      if switch.takesValue then read (o.give switch value) strays args
      else read (o.give switch "") (strays ++ [value]) args
  | .option switch .nothing :: args =>
      if switch.takesValue then .error (.noValue switch)
      else read (o.give switch "") strays args
  | .option switch (.toLong value) :: args | .option switch (.toShort value) :: args =>
      if switch.takesValue then read (o.give switch value) strays args
      else .error (.needlessValue switch value)

/-- What the arguments ask for. -/
def readArgs (args : List String) : Except UsageError Request := do
  read {} [] (← classifyAll args)

/-! ## Texts -/

/-- The first line of the help and of every usage error. -/
def usage : String :=
  "usage: tronsh [-h] [--command LINE] [--parse LINE] [--no-profile] [--debug]\n"

def UsageError.text (e : UsageError) : String :=
  usage ++ "tronsh: error: " ++ e.message ++ "\n"

def helpText : String :=
  usage ++ "\n" ++
  "tronsh - a small shell over an in-memory file store\n" ++ "\n" ++
  "options:\n" ++
  "  -h, --help            show this help message and exit\n" ++
  "  --command LINE, -c LINE\n" ++
  "                        Run LINE and exit with its exit code\n" ++
  "  --parse LINE          Print the command tree for LINE and exit (with\n" ++
  "                        --debug, the tokens too)\n" ++
  "  --no-profile          Do not run $HOME/.profile at startup\n" ++
  "  --debug               Enable debug logging on stderr\n" ++ "\n" ++
  "Examples:\n" ++
  "  tronsh                           # Interactive prompt\n" ++
  "  tronsh -c 'echo hi | wc -c'      # Run one line and exit with its status\n" ++
  "  tronsh --parse 'a && b | c'      # Show how a line is grouped\n" ++ "\n" ++
  "Environment:\n" ++
  "  TRONSH_PROMPT      prompt string (default \"tronsh> \")\n" ++
  "  TRONSH_LOG_LEVEL   logging level (default WARNING)\n" ++
  "  TRONSH_HOME        initial $HOME\n"

end MemShell.Cli
