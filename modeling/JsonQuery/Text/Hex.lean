/-!
Hexadecimal digits and the escapes by four of them. An escape names a 16-bit unit; a character from
U+10000 on is a pair of escapes, the first a high surrogate and the second a low one.
-/

namespace JsonQuery.Text

def hexValue? (c : Char) : Option Nat :=
  if c.isDigit then some (c.toNat - '0'.toNat)
  else if 'a' ≤ c ∧ c ≤ 'f' then some (c.toNat - 'a'.toNat + 10)
  else if 'A' ≤ c ∧ c ≤ 'F' then some (c.toNat - 'A'.toNat + 10)
  else none

def hexDigit (n : Nat) : Char := Nat.digitChar n

def unit? : List Char → Option (Nat × List Char)
  | a :: b :: c :: d :: rest => do
    let a ← hexValue? a
    let b ← hexValue? b
    let c ← hexValue? c
    let d ← hexValue? d
    some (((a * 16 + b) * 16 + c) * 16 + d, rest)
  | _ => none

theorem unit?_length {text rest : List Char} {unit : Nat} (h : unit? text = some (unit, rest)) :
    rest.length < text.length := by
  unfold unit? at h
  split at h
  · simp only [Option.bind_eq_bind, Option.bind_eq_some_iff, Option.some.injEq, Prod.mk.injEq] at h
    obtain ⟨_, _, _, _, _, _, _, _, _, rfl⟩ := h
    simp only [List.length_cons]
    omega
  · cases h

/-- Why an escape names no character: digits are missing at the front of a text, or a surrogate has
no partner. -/
inductive EscapeFault where
  | digits (rest : List Char)
  | unpaired

def isHighSurrogate (unit : Nat) : Bool := 0xD800 ≤ unit && unit < 0xDC00

def isLowSurrogate (unit : Nat) : Bool := 0xDC00 ≤ unit && unit < 0xE000

/-- The character of a surrogate pair. -/
def ofSurrogates (high low : Nat) : Char :=
  Char.ofNat (0x10000 + (high - 0xD800) * 0x400 + (low - 0xDC00))

/-- The character of an escape whose `\u` has been read. -/
def escapedUnits (text : List Char) : Except EscapeFault (Char × List Char) :=
  match unit? text with
  | none => .error (.digits text)
  | some (unit, rest) =>
    if isHighSurrogate unit then
      match rest with
      | '\\' :: 'u' :: rest =>
        match unit? rest with
        | none => .error (.digits rest)
        | some (low, rest) =>
          if isLowSurrogate low then .ok (ofSurrogates unit low, rest) else .error .unpaired
      | _ => .error .unpaired
    else if isLowSurrogate unit then .error .unpaired
    else .ok (Char.ofNat unit, rest)

theorem escapedUnits_length {text rest : List Char} {c : Char}
    (h : escapedUnits text = .ok (c, rest)) : rest.length < text.length := by
  unfold escapedUnits at h
  split at h
  · simp at h
  · rename_i unit rest₁ h₁
    have l₁ := unit?_length h₁
    split at h
    · split at h
      · rename_i rest₂
        split at h
        · simp at h
        · rename_i low rest₃ h₂
          have l₂ := unit?_length h₂
          split at h
          · simp only [Except.ok.injEq, Prod.mk.injEq] at h
            obtain ⟨-, rfl⟩ := h
            simp only [List.length_cons] at l₁
            omega
          · simp at h
      · simp at h
    · split at h
      · simp at h
      · simp only [Except.ok.injEq, Prod.mk.injEq] at h
        obtain ⟨-, rfl⟩ := h
        exact l₁

end JsonQuery.Text
