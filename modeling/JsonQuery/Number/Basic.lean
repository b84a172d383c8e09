/-!
Binary64 numbers, held exactly. The magnitudes are numbered in ascending order from zero; this rank
and the sign are the number. Every finite number is a whole multiple of one least unit, so its
value, its order and its whole part are computed on natural numbers.
-/

namespace JsonQuery

/-- A binary64 number: its sign, and the rank of its magnitude among all magnitudes. The rank takes
63 bits. -/
@[ext] structure Number where
  negative : Bool
  rank : Nat
  rank_lt : rank < 0x8000000000000000
  deriving DecidableEq

namespace Number

/-- The number of binary places of the least unit. -/
def unitPlaces : Nat := 1074

/-- The number of least units in one. -/
def unitsInOne : Nat := 1 <<< unitPlaces

/-- The number of ranks with one scale. -/
def ranksPerScale : Nat := 0x10000000000000

/-- The rank of infinity. The ranks above it stand for no number. -/
def infinityRank : Nat := 0x7FF0000000000000

theorem infinityRank_lt : infinityRank < 0x8000000000000000 := by decide

def zero : Number := ⟨false, 0, by decide⟩

instance : Inhabited Number := ⟨zero⟩

/-- The number of a sign and a rank; ranks above infinity are cut down to it. -/
def ofRank (negative : Bool) (rank : Nat) : Number :=
  ⟨negative, min rank infinityRank, by have := infinityRank_lt; omega⟩

/-- The number written as 64 bits: the sign, then the rank. -/
def ofBits (bits : UInt64) : Number :=
  ⟨0x8000000000000000 ≤ bits.toNat, bits.toNat % 0x8000000000000000, Nat.mod_lt _ (by decide)⟩

def toBits (x : Number) : UInt64 :=
  UInt64.ofNat ((if x.negative then 0x8000000000000000 else 0) + x.rank)

theorem ofBits_toBits (x : Number) : ofBits x.toBits = x := by
  obtain ⟨negative, rank, hrank⟩ := x
  cases negative <;> simp [ofBits, toBits] <;> omega

theorem toBits_ofBits (bits : UInt64) : (ofBits bits).toBits = bits := by
  apply UInt64.toNat_inj.mp
  have h := bits.toNat_lt
  simp only [ofBits, toBits, decide_eq_true_eq, UInt64.toNat_ofNat']
  split <;> omega

def IsFinite (x : Number) : Prop := x.rank < infinityRank

instance (x : Number) : Decidable x.IsFinite := inferInstanceAs (Decidable (_ < _))

/-- The patterns above infinity stand for no number. -/
def IsNaN (x : Number) : Prop := infinityRank < x.rank

/-- The usual pattern that stands for no number. -/
def notANumber (negative : Bool) : Number := ⟨negative, 0x7FF8000000000000, by decide⟩

instance (x : Number) : Decidable x.IsNaN := inferInstanceAs (Decidable (_ < _))

/-- The exponent of two by which the significand is scaled. -/
def scale (x : Number) : Nat := x.rank / ranksPerScale - 1

def significand (x : Number) : Nat := x.rank - x.scale * ranksPerScale

/-- The magnitude of a finite number, counted in least units. -/
def units (x : Number) : Nat := x.significand <<< x.scale

/-- The signed rank orders the numbers as their values do, with one rank for both zeros. -/
def signedRank (x : Number) : Int := if x.negative then -x.rank else x.rank

/-- The order of two numbers; a pattern that stands for no number has none. -/
def order (x y : Number) : Option Ordering :=
  if x.IsNaN ∨ y.IsNaN then none else some (compare x.signedRank y.signedRank)

/-- Equality of value: the two zeros are equal, and what is no number equals nothing. -/
def same (x y : Number) : Bool := x.order y == some .eq

/-- The whole number that `x` is, if it is one. -/
def toInt? (x : Number) : Option Int :=
  if x.IsFinite ∧ x.units % unitsInOne = 0 then
    let magnitude : Int := x.units / unitsInOne
    some (if x.negative then -magnitude else magnitude)
  else
    none

end Number

end JsonQuery
