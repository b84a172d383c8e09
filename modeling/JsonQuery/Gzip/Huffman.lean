import JsonQuery.Gzip.Bits

/-!
Canonical prefix codes. Codes of one length are consecutive numbers, shorter codes come before
longer ones, and symbols of one length are in order; so the lengths alone give the code.
-/

namespace JsonQuery.Gzip

/-- A prefix code: how many symbols have each length from 1 to 15, and the symbols in the order of
their codes. -/
structure PrefixCode where
  counts : List Nat
  symbols : Array Nat

namespace PrefixCode

def maxLength : Nat := 15

/-- The code in which each symbol has the length at its place; a length of zero means that the
symbol has no code. -/
def ofLengths (lengths : List Nat) : PrefixCode :=
  let places := lengths.zipIdx
  let range := (List.range maxLength).map (· + 1)
  { counts := range.map fun length => lengths.countP (· == length)
    symbols := (range.flatMap fun length =>
      places.filterMap fun (l, symbol) => if l = length then some symbol else none).toArray }

/-- The codes are used up: no further code could be added. -/
def Complete (code : PrefixCode) : Prop :=
  code.counts.foldl (fun total count => 2 * (total + count)) 0 = 1 <<< (maxLength + 1)

instance (code : PrefixCode) : Decidable code.Complete := inferInstanceAs (Decidable (_ = _))

/-- There is one symbol at most, and its code has one bit. -/
def Minimal (code : PrefixCode) : Prop :=
  code.symbols.size ≤ 1 ∧ code.counts.headD 0 = code.symbols.size

instance (code : PrefixCode) : Decidable code.Minimal := inferInstanceAs (Decidable (_ ∧ _))

/-- The walk through the lengths: `value` is the code read so far, `first` the first code of the
length and `place` the place of its symbol. -/
def walk (symbols : Array Nat) : (counts : List Nat) → (value first place : Nat) → Bits →
    Option (Nat × Bits)
  | [], _, _, _, _ => none
  | count :: counts, value, first, place, bits => do
    let (bit, bits) ← bits.next?
    let value := 2 * value + bit.toNat
    if value < first + count then
      return (← symbols[place + (value - first)]?, bits)
    else
      walk symbols counts value (2 * (first + count)) (place + count) bits

def decode? (code : PrefixCode) (bits : Bits) : Option (Nat × Bits) :=
  walk code.symbols code.counts 0 0 0 bits

theorem count_walk {symbols : Array Nat} {counts : List Nat} {value first place symbol : Nat}
    {bits rest : Bits} (h : walk symbols counts value first place bits = some (symbol, rest)) :
    rest.count < bits.count := by
  induction counts generalizing value first place bits with
  | nil => simp [walk] at h
  | cons count counts ih =>
    simp only [walk, Option.bind_eq_bind, Option.bind_eq_some_iff] at h
    obtain ⟨⟨bit, bits₁⟩, h₁, h⟩ := h
    have hn := Bits.count_next? h₁
    split at h
    · simp only [Option.bind_eq_some_iff, Option.pure_def, Option.some.injEq, Prod.mk.injEq] at h
      obtain ⟨_, _, -, rfl⟩ := h
      exact hn
    · have := ih h
      simp only at *
      omega

theorem count_decode? {code : PrefixCode} {symbol : Nat} {bits rest : Bits}
    (h : code.decode? bits = some (symbol, rest)) : rest.count < bits.count :=
  count_walk h

end PrefixCode

end JsonQuery.Gzip
