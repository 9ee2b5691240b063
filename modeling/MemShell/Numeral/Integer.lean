import MemShell.Numeral.Run
import MemShell.Text.Quoted

/-!
# Whole numbers written as text

A whole number is a sign, if there is one, and a run of digits; blanks around
it are ignored. Reading refuses a long run before it looks at what follows:
the cost of converting digits grows faster than their number, and a limit of
4300 bounds it. Writing a number has the same cost; there the limit is not part
of the model, and a number of any size has its digits.

Both refusals are values of `IntegerError`, worded in one place, because one
command shows them and another replaces them by a message of its own.
-/

namespace MemShell.Numeral

open MemShell.Text

/-- Why a text is not read as a whole number. -/
inductive IntegerError where
  /-- The text is not a numeral. -/
  | malformed (text : String)
  /-- The numeral has more digits than the limit allows. -/
  | tooLong (digits : Nat)
deriving DecidableEq, Repr

def maxDigits : Nat := 4300

/-- The refusal in words. A malformed text is shown quoted, cut to 200 characters. -/
def IntegerError.message : IntegerError → String
  | .malformed text =>
      "invalid literal for int() with base 10: " ++
        String.ofList ((quote text).toList.take 200)
  | .tooLong digits =>
      "Exceeds the limit (4300 digits) for integer string conversion: value has " ++
        toString digits ++ " digits; use sys.set_int_max_str_digits() to increase the limit"

/-- The whole number that a text stands for. -/
def readInt (text : String) : Except IntegerError Int :=
  let (negative, body) := takeSign (text.toList.dropWhile isPadding)
  let (run, rest) := takeRun body
  match digitsOfRun? run with
  | none => .error (.malformed text)
  | some digits =>
      if maxDigits < digits.length then .error (.tooLong digits.length)
      else if rest.all isPadding then
        .ok (if negative then -(readDigits digits : Int) else (readDigits digits : Int))
      else .error (.malformed text)

end MemShell.Numeral
