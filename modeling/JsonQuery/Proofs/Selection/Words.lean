import JsonQuery.Path.Lexeme
import JsonQuery.Value.Basic

/-!
Index arithmetic in words of 64 bits with a sign. What the search computes with integers is
computed here with words, one sum after the other, and a sum that is no word is a fault. Where
lengths and indices are words both computations agree, so the search never leaves the words.
-/

namespace JsonQuery.Words

/-- Why a computation in words has no result. -/
inductive Fault where
  /-- A sum does not fit into a word. -/
  | overflow
  /-- The ends of an interval stand the wrong way round. -/
  | noInterval

def sum (a b : Int) : Except Fault Int :=
  if Path.InIndexRange (a + b) then .ok (a + b) else .error .overflow

def ofLength (length : Nat) : Int := Int.bmod length 0x10000000000000000

/-- A word as a place. The bits of a negative word are read without a sign. -/
def toPlace (word : Int) : Nat := (word % 0x10000000000000000).toNat

/-- An index into a list of the given size, counted from the start. -/
def fromStart (size index : Int) : Except Fault Int :=
  if index < 0 then sum size index else .ok index

/-- `Value.place?` in words. -/
def place? (length : Nat) (index : Int) : Except Fault (Option Nat) := do
  let place ← fromStart (ofLength length) index
  return if 0 ≤ place ∧ place < ofLength length then some (toPlace place) else none

section Agreement

variable {length : Nat} (hlength : length < 0x8000000000000000)

theorem sum_eq_ok {a b : Int} (h : Path.InIndexRange (a + b)) : sum a b = .ok (a + b) := if_pos h

theorem toPlace_eq {word : Int} (hnonneg : 0 ≤ word) (hlt : word < 0x8000000000000000) :
    toPlace word = word.toNat := by
  rw [toPlace, Int.emod_eq_of_lt hnonneg (by omega)]

include hlength

theorem ofLength_eq : ofLength length = length := by
  apply Int.bmod_eq_of_le
  · omega
  · omega

theorem fromStart_eq {index : Int} (hindex : Path.InIndexRange index) :
    fromStart length index = .ok (Value.fromStart length index) := by
  rw [Path.InIndexRange] at hindex
  rw [fromStart, Value.fromStart]
  by_cases hneg : index < 0
  · rw [if_pos hneg, if_pos hneg]
    apply sum_eq_ok
    rw [Path.InIndexRange]
    omega
  · rw [if_neg hneg, if_neg hneg]

theorem place?_eq {index : Int} (hindex : Path.InIndexRange index) :
    place? length index = .ok (Value.place? length index) := by
  rw [place?, ofLength_eq hlength, fromStart_eq hlength hindex, Value.place?]
  simp only [bind, Except.bind, pure, Except.pure]
  split
  · rename_i hplace
    rw [toPlace_eq hplace.1 (by omega)]
  · rfl

end Agreement

end JsonQuery.Words
