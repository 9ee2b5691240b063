import MemShell.Text.Blank
import MemShell.Text.Digit

/-!
# Runs of digits

What whole and decimal numerals share: blanks around them, a sign, and runs of
decimal digits of any script in which single underscores may stand between
digits. The four information separators do not count as blanks here, although
words are cut at them.
-/

namespace MemShell.Numeral

open MemShell.Text

/-- Blanks that may stand around a numeral. -/
def isPadding (c : Char) : Bool :=
  isBlank c && !(0x1C ≤ c.toNat && c.toNat ≤ 0x1F)

/-- A sign, if the text starts with one; `true` means negative. -/
def takeSign : List Char → Bool × List Char
  | '-' :: cs => (true, cs)
  | '+' :: cs => (false, cs)
  | cs => (false, cs)

/-- Digits and underscores: the characters of a run. -/
def isRunChar (c : Char) : Bool :=
  c = '_' || (decimalValue? c).isSome

/-- The longest run that a text starts with, and what follows it. -/
def takeRun (cs : List Char) : List Char × List Char :=
  (cs.takeWhile isRunChar, cs.dropWhile isRunChar)

/-- Every underscore stands between two digits, and a digit comes last.
`afterDigit` says whether a digit stands right before the text. -/
def joinsDigits (afterDigit : Bool) : List Char → Bool
  | [] => afterDigit
  | c :: cs => if c = '_' then afterDigit && joinsDigits false cs else joinsDigits true cs

/-- The digit values of a run, most significant first, if its underscores are well placed. -/
def digitsOfRun? (run : List Char) : Option (List Nat) :=
  if joinsDigits false run then some (run.filterMap decimalValue?) else none

/-- The number that a list of digits stands for, most significant first. -/
def readDigits (digits : List Nat) : Nat :=
  digits.foldl (fun n d => 10 * n + d) 0

end MemShell.Numeral
