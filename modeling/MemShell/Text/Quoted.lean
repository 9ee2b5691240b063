import MemShell.Text.Printable

/-!
# Text quoted for display

Debug output shows a text between quotes, on one line, so that its ends and
its invisible characters can be seen. The quote is the single one, unless the
text holds single quotes and no double one. The backslash and the chosen
quote are escaped, line feed, carriage return and tab have short escapes, and
any other character that is not printable is written by its code point in
two, four or eight hexadecimal digits, the fewest that hold it.
-/

namespace MemShell.Text

/-- `width` hexadecimal digits of `n`, lower case, padded with zeros. -/
def hexDigits (width n : Nat) : List Char :=
  let digits := Nat.toDigits 16 n
  List.replicate (width - digits.length) '0' ++ digits

/-- The quote put around a text. -/
def quoteMark (cs : List Char) : Char :=
  if '\'' ∈ cs ∧ '"' ∉ cs then '"' else '\''

/-- One character as it stands inside `mark` quotes. -/
def escapeChar (mark c : Char) : List Char :=
  if c = mark ∨ c = '\\' then ['\\', c]
  else if c = '\n' then ['\\', 'n']
  else if c = '\r' then ['\\', 'r']
  else if c = '\t' then ['\\', 't']
  else if isPrintable c then [c]
  else if c.toNat < 0x100 then '\\' :: 'x' :: hexDigits 2 c.toNat
  else if c.toNat < 0x10000 then '\\' :: 'u' :: hexDigits 4 c.toNat
  else '\\' :: 'U' :: hexDigits 8 c.toNat

/-- A text between quotes, on one line. -/
def quote (s : String) : String :=
  let mark := quoteMark s.toList
  String.ofList (mark :: s.toList.flatMap (escapeChar mark) ++ [mark])

/-- Items between square brackets, separated by commas. -/
def bracketed (items : List String) : String :=
  "[" ++ ", ".intercalate items ++ "]"

def quoteList (items : List String) : String :=
  bracketed (items.map quote)

/-- Pairs of texts between braces, each pair as key, colon, value. -/
def quotePairs (items : List (String × String)) : String :=
  "\x7b" ++ ", ".intercalate (items.map fun (k, v) => quote k ++ ": " ++ quote v) ++ "\x7d"

end MemShell.Text
