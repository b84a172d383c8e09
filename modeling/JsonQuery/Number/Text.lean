import JsonQuery.Number.Shortest

/-!
The text of a number in JSON output.
-/

namespace JsonQuery

namespace Text

def ofNat (n : Nat) : List Char := Nat.toDigits 10 n

def ofInt (n : Int) : List Char :=
  if n < 0 then '-' :: ofNat n.natAbs else ofNat n.natAbs

end Text

namespace Number

/-- Whole numbers below this bound are written as integers. -/
def integerBound : Nat := tenTo 15

/-- Digits with the decimal point after the leading digit moved by `exponent`: positional for
exponents from -6 to 14, otherwise with an exponent mark. -/
def layOut (digits : List Char) (exponent : Int) : List Char :=
  if -6 ≤ exponent ∧ exponent < 0 then
    "0.".toList ++ List.replicate (-exponent - 1).toNat '0' ++ digits
  else if 0 ≤ exponent ∧ exponent < 15 then
    let places := exponent.toNat + 1
    if places < digits.length then
      digits.take places ++ '.' :: digits.drop places
    else
      digits ++ List.replicate (places - digits.length) '0'
  else
    let mantissa := if 1 < digits.length then digits.take 1 ++ '.' :: digits.drop 1 else digits
    mantissa ++ 'e' :: Text.ofInt exponent

def decimalText (decimal : Decimal) : List Char :=
  let digits := Text.ofNat decimal.digits
  layOut digits (decimal.exponent + digits.length - 1)

/-- The text of a number. Whole numbers below `10 ^ 15` are integers, with one zero; other finite
numbers have the fewest digits that read back, and the rest are `null`. -/
def text (x : Number) : List Char :=
  if x.IsFinite then
    match x.toInt?.filter (·.natAbs < integerBound) with
    | some n => Text.ofInt n
    | none => (if x.negative then ['-'] else []) ++ decimalText x.shortest
  else
    "null".toList

end Number

end JsonQuery
