import JsonQuery.Number.Basic

/-!
The binary64 number nearest to a decimal, a tie going to the even significand and what is too large
to infinity.
-/

namespace JsonQuery

/-- The decimal `digits * 10 ^ exponent`. -/
structure Decimal where
  digits : Nat
  exponent : Int
  deriving DecidableEq

def tenTo (exponent : Nat) : Nat := Nat.pow 10 exponent

namespace Number

/-- The quotient rounded to the nearest whole number, a tie going to the even one. -/
def roundQuotient (num den : Nat) : Nat :=
  let quotient := num / den
  let twice := 2 * (num % den)
  if den < twice ∨ (twice = den ∧ quotient % 2 = 1) then quotient + 1 else quotient

/-- The rank of the magnitude nearest to `num / den` least units. A significand that rounds up to
the next power of two gives the first rank of the next scale. -/
def nearestRank (num den : Nat) : Nat :=
  let scale := (num / den).log2 - 52
  scale * ranksPerScale + roundQuotient num (den <<< scale)

/-- Decimals from this power of ten on are infinite, and those below its inverse are zero. -/
def decimalRange : Nat := 400

/-- The number nearest to a decimal with the given sign. -/
def ofDecimal (negative : Bool) (decimal : Decimal) : Number :=
  let ⟨digits, exponent⟩ := decimal
  if digits = 0 then
    ofRank negative 0
  -- an exponent may be a text of any length: no power of ten is computed far out of range
  else if (decimalRange : Int) < exponent then
    ofRank negative infinityRank
  else if exponent < -(digits.log2 + decimalRange : Nat) then
    ofRank negative 0
  else
    ofRank negative
      (nearestRank (digits * tenTo exponent.toNat * unitsInOne) (tenTo (-exponent).toNat))

def ofInt (n : Int) : Number := ofDecimal (n < 0) ⟨n.natAbs, 0⟩

end Number

end JsonQuery
