/-!
Bits read from bytes, each byte from its low end.
-/

namespace JsonQuery.Gzip

/-- The bits that are left: bytes, of the first of which some bits have been read. -/
structure Bits where
  bytes : List UInt8
  read : Fin 8

namespace Bits

def ofBytes (bytes : List UInt8) : Bits := ⟨bytes, 0⟩

def count (bits : Bits) : Nat := 8 * bits.bytes.length - bits.read

def next? (bits : Bits) : Option (Bool × Bits) :=
  match bits.bytes with
  | [] => none
  | byte :: bytes =>
    let bit := byte.toNat.testBit bits.read
    if h : bits.read.val < 7 then some (bit, ⟨byte :: bytes, ⟨bits.read + 1, by omega⟩⟩)
    else some (bit, ⟨bytes, 0⟩)

theorem count_next? {bits rest : Bits} {bit : Bool} (h : bits.next? = some (bit, rest)) :
    rest.count < bits.count := by
  obtain ⟨bytes, read, hread⟩ := bits
  unfold next? at h
  split at h
  · cases h
  · rename_i byte bytes' hb
    simp only at hb
    subst hb
    simp only at h
    split at h
    · simp only [Option.some.injEq, Prod.mk.injEq] at h
      obtain ⟨-, rfl⟩ := h
      simp only [count, List.length_cons]
      omega
    · simp only [Option.some.injEq, Prod.mk.injEq] at h
      obtain ⟨-, rfl⟩ := h
      simp only [count, List.length_cons, Fin.val_zero]
      omega

/-- A number of `width` bits, the lowest first. -/
def number? : (width : Nat) → Bits → Option (Nat × Bits)
  | 0, bits => some (0, bits)
  | width + 1, bits => do
    let (bit, bits) ← bits.next?
    let (high, bits) ← number? width bits
    return (2 * high + bit.toNat, bits)

theorem count_number? {width n : Nat} {bits rest : Bits} (h : number? width bits = some (n, rest)) :
    rest.count + width ≤ bits.count := by
  induction width generalizing bits n with
  | zero =>
    simp only [number?, Option.some.injEq, Prod.mk.injEq] at h
    obtain ⟨-, rfl⟩ := h
    simp
  | succ width ih =>
    simp only [number?, Option.bind_eq_bind, Option.bind_eq_some_iff, Option.pure_def,
      Option.some.injEq, Prod.mk.injEq] at h
    obtain ⟨⟨bit, bits₁⟩, h₁, ⟨high, bits₂⟩, h₂, -, rfl⟩ := h
    have := count_next? h₁
    have := ih h₂
    simp only at *
    omega

def toBytes (bits : Bits) : List UInt8 :=
  if bits.read = 0 then bits.bytes else bits.bytes.drop 1

end Bits

end JsonQuery.Gzip
