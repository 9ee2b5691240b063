/-!
# Digits of all scripts

A numeral may be written in the digits of any script, and an alias name may
not start with a digit of any script. Two properties of characters are
needed:

* the *decimal* digits come in runs of ten with values zero to nine, so the
  table lists only where each run starts, and the value of a digit is its
  distance from there;
* the *other* digits (superscripts, circled and parenthesised digits and the
  like) stand for a single digit but cannot be used to write a number; they
  are given by their ranges.
-/

namespace MemShell.Text

/-- The zeros of the runs of decimal digits, in increasing order. -/
def decimalZeros : List Nat :=
  [48, 1632, 1776, 1984, 2406, 2534, 2662, 2790, 2918, 3046, 3174, 3302, 3430,
   3558, 3664, 3792, 3872, 4160, 4240, 6112, 6160, 6470, 6608, 6784, 6800, 6992,
   7088, 7232, 7248, 42528, 43216, 43264, 43472, 43504, 43600, 44016, 65296,
   66720, 68912, 69734, 69872, 69942, 70096, 70384, 70736, 70864, 71248, 71360,
   71472, 71904, 72016, 72784, 73040, 73120, 92768, 92864, 93008, 120782, 120792,
   120802, 120812, 120822, 123200, 123632, 125264, 130032]

/-- The ranges of digits that are not decimal digits, both ends included. -/
def otherDigits : List (Nat × Nat) :=
  [(178, 179), (185, 185), (4969, 4977), (6618, 6618), (8304, 8304), (8308, 8313),
   (8320, 8329), (9312, 9320), (9332, 9340), (9352, 9360), (9450, 9450),
   (9461, 9469), (9471, 9471), (10102, 10110), (10112, 10120), (10122, 10130),
   (68160, 68163), (69216, 69224), (69714, 69722), (127232, 127242)]

/-- The value of a decimal digit of any script. -/
def decimalValue? (c : Char) : Option Nat :=
  (decimalZeros.find? fun z => z ≤ c.toNat && c.toNat < z + 10).map (c.toNat - ·)

/-- A character that stands for a digit, decimal or not. -/
def isDigit (c : Char) : Bool :=
  (decimalValue? c).isSome || otherDigits.any fun (lo, hi) => lo ≤ c.toNat && c.toNat ≤ hi

end MemShell.Text
