import MemShell.Numeral.Run

/-!
# Decimal numbers written as text

A decimal number is a sign, if there is one, digits with a point among them or
not, and a power of ten, if there is one; `inf`, `infinity` and `nan` are
numbers too, in any case. Blanks around it are ignored.

The value is kept exactly, as digits times a power of ten. What a waiting
command asks of it is only whether the time is positive once it is rounded to
a binary number of 64 bits: the smallest such number is `2 ^ -1074`, and half
of it rounds to zero.
-/

namespace MemShell.Numeral

open MemShell.Text

/-- A number as it was written. -/
inductive Decimal where
  /-- `digits · 10 ^ exponent`, negated if `negative`. -/
  | finite (negative : Bool) (digits : Nat) (exponent : Int)
  | infinite (negative : Bool)
  | notANumber
deriving DecidableEq, Repr

/-- The digits of an optional run: none at all, or a well-formed run. -/
def digitsOfOptionalRun? (run : List Char) : Option (List Nat) :=
  if run.isEmpty then some [] else digitsOfRun? run

/-- The power of ten at the end of a numeral; nothing at all is the power zero. -/
def readExponent? : List Char → Option Int
  | [] => some 0
  | c :: cs =>
      if c = 'e' ∨ c = 'E' then
        let (negative, body) := takeSign cs
        (digitsOfRun? body).bind fun digits =>
          if body.all isRunChar then
            some (if negative then -(readDigits digits : Int) else (readDigits digits : Int))
          else none
      else none

/-- A numeral without sign and without blanks around it. -/
def readMagnitude? (negative : Bool) (cs : List Char) : Option Decimal :=
  let lower := String.ofList (cs.map Char.toLower)
  if lower = "inf" ∨ lower = "infinity" then some (.infinite negative)
  else if lower = "nan" then some .notANumber
  else
    let (whole, rest) := takeRun cs
    let (fraction, rest) :=
      match rest with
      | '.' :: rest => takeRun rest
      | rest => ([], rest)
    match digitsOfOptionalRun? whole, digitsOfOptionalRun? fraction, readExponent? rest with
    | some ds, some fs, some e =>
        if ds.isEmpty && fs.isEmpty then none
        else some (.finite negative (readDigits (ds ++ fs)) (e - fs.length))
    | _, _, _ => none

/-- The decimal number that a text stands for. -/
def readDecimal? (text : String) : Option Decimal :=
  let padded := text.toList.dropWhile isPadding
  let (negative, body) := takeSign (padded.reverse.dropWhile isPadding).reverse
  readMagnitude? negative body

/-- How many decimal digits a number has; zero has none. -/
def digitCount (n : Nat) : Nat :=
  if n = 0 then 0 else (Nat.toDigits 10 n).length

/-- Whether the number is above zero after rounding to binary. A number with
`n` digits and exponent `e` lies from `10 ^ (n - 1 + e)` up to `10 ^ (n + e)`, so
only the decade of `2 ^ -1075` itself needs an exact comparison, and no power of
ten is formed that is longer than the numeral. -/
def Decimal.isPositive : Decimal → Bool
  | .finite negative digits exponent =>
      let top : Int := digitCount digits + exponent
      !negative && digits != 0 &&
        (-323 < top || (top == -323 && Nat.pow 10 (-exponent).toNat < digits <<< 1075))
  | .infinite negative => !negative
  | .notANumber => false

/-- Whether waiting this long takes any time: a time that is not a number is
not in the past either, so it counts as a wait. -/
def Decimal.waits : Decimal → Bool
  | .notANumber => true
  | d => d.isPositive

/-- The time in whole milliseconds, rounded down and cut at `limit`. -/
def Decimal.milliseconds (limit : Nat) : Decimal → Nat
  | .finite false digits exponent =>
      let top : Int := digitCount digits + exponent
      if top < -3 then 0
      else if (digitCount limit : Int) < top + 3 then limit
      else if 0 ≤ exponent + 3 then min limit (digits * Nat.pow 10 (exponent + 3).toNat)
      else min limit (digits / Nat.pow 10 (-(exponent + 3)).toNat)
  | .infinite false => limit
  | _ => 0

end MemShell.Numeral
