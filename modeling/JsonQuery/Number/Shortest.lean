import JsonQuery.Number.Nearest

/-!
The shortest decimal that reads back as a given number. The decimals with a common exponent form a
grid. The search goes from coarse grids to fine ones and tries the two points of each grid next to
the number; the first grid with a point that reads back as the number gives the fewest digits. Of
two such points the nearer is taken, and of two equally near ones the upper.
-/

namespace JsonQuery

/-- The same decimal without trailing zeros in its digits. -/
def Decimal.trim (decimal : Decimal) : Decimal :=
  if decimal.digits ≠ 0 ∧ decimal.digits % 10 = 0 then
    Decimal.trim ⟨decimal.digits / 10, decimal.exponent + 1⟩
  else
    decimal
  termination_by decimal.digits
  decreasing_by omega

namespace Number

/-- Whether the decimal is read as a number of the same magnitude as `x`. -/
def ReadsBack (x : Number) (decimal : Decimal) : Prop :=
  (ofDecimal x.negative decimal).rank = x.rank

instance (x : Number) (decimal : Decimal) : Decidable (x.ReadsBack decimal) :=
  inferInstanceAs (Decidable (_ = _))

/-- The point of the grid of an exponent that reads back as `x` and lies nearest to it. -/
def nearestOnGrid? (x : Number) (exponent : Int) : Option Decimal :=
  let num := x.units * tenTo (-exponent).toNat
  let den := unitsInOne * tenTo exponent.toNat
  let lower : Decimal := ⟨num / den, exponent⟩
  let upper : Decimal := ⟨num / den + 1, exponent⟩
  if x.ReadsBack lower then
    some (if x.ReadsBack upper ∧ den ≤ 2 * (num % den) then upper else lower)
  else if x.ReadsBack upper then some upper
  else none

/-- The search over the grids from the exponent `fineness - unitPlaces` down. The last grid holds
every finite number. -/
def searchGrids (x : Number) : Nat → Decimal
  | 0 => ⟨x.units * tenTo unitPlaces / unitsInOne, -unitPlaces⟩
  | fineness + 1 =>
    (x.nearestOnGrid? ((fineness + 1 : Nat) - unitPlaces)).getD (x.searchGrids fineness)

/-- An exponent at or above that of the leading digit of a finite number other than zero: the
binary logarithm times the decimal logarithm of two, rounded up. -/
def coarsestExponent (x : Number) : Int :=
  let binary : Int := x.units.log2 - unitPlaces
  binary * 30103 / 100000 + 1

/-- The shortest decimal that reads back as the magnitude of `x`. -/
def shortest (x : Number) : Decimal :=
  (x.searchGrids (x.coarsestExponent + unitPlaces).toNat).trim

end Number

end JsonQuery
