import JsonQuery.Json.Fault
import JsonQuery.Number.Numeral

/-!
Number literals of JSON documents: a minus sign if any, a whole part without leading zeros, a
fraction if any and an exponent if any. A literal beyond the finite numbers is refused.
-/

namespace JsonQuery.Json

open Text (startsWithDigit digits afterDigits natOfDigits bind_eq_ok)

/-- The digits before the point: one zero, or digits that begin with another one. -/
def wholePart (text : List Char) : Except Fault (List Char × List Char) :=
  match text with
  | '0' :: rest => .ok (['0'], rest)
  | text =>
    if startsWithDigit text then .ok (digits text, afterDigits text) else .error ⟨.number, text⟩

def fractionPart (text : List Char) : Except Fault (List Char × List Char) :=
  match text with
  | '.' :: rest =>
    if startsWithDigit rest then .ok (digits rest, afterDigits rest) else .error ⟨.number, rest⟩
  | text => .ok ([], text)

def exponentPart : Reader Int := Text.exponentPart fun _ rest => ⟨.number, rest⟩

def numeral (text : List Char) : Except Fault (Numeral × List Char) := do
  let (negative, rest) := Text.minus text
  let (whole, rest) ← wholePart rest
  let (fraction, rest) ← fractionPart rest
  let (exponent, rest) ← exponentPart rest
  return (⟨negative, whole, fraction, exponent⟩, rest)

def number (text : List Char) : Except Fault (Number × List Char) := do
  let (numeral, rest) ← numeral text
  if numeral.number.IsFinite then return (numeral.number, rest) else .error ⟨.number, text⟩

theorem wholePart_length {text rest whole : List Char} (h : wholePart text = .ok (whole, rest)) :
    rest.length < text.length := by
  unfold wholePart at h
  split at h
  · cases h
    simp
  · split at h
    · rename_i hd
      cases h
      exact Text.afterDigits_length_lt hd
    · cases h

theorem fractionPart_length {text rest fraction : List Char}
    (h : fractionPart text = .ok (fraction, rest)) : rest.length ≤ text.length := by
  unfold fractionPart at h
  split at h
  · split at h
    · rename_i rest' hd
      cases h
      have := Text.afterDigits_length_lt hd
      simp only [List.length_cons]
      omega
    · cases h
  · cases h
    exact Nat.le_refl _

theorem numeral_length {text rest : List Char} {n : Numeral} (h : numeral text = .ok (n, rest)) :
    rest.length < text.length := by
  simp only [numeral] at h
  obtain ⟨whole, hwhole, h⟩ := bind_eq_ok.mp h
  obtain ⟨fraction, hfraction, h⟩ := bind_eq_ok.mp h
  obtain ⟨exponent, hexponent, h⟩ := bind_eq_ok.mp h
  cases h
  have := Text.minus_length_le text
  have := wholePart_length hwhole
  have := fractionPart_length hfraction
  have := Text.exponentPart_length hexponent
  omega

theorem number_length {text rest : List Char} {x : Number} (h : number text = .ok (x, rest)) :
    rest.length < text.length := by
  obtain ⟨⟨numeral, rest₁⟩, hread, h⟩ := bind_eq_ok.mp h
  dsimp only at h
  split at h
  · cases h
    exact numeral_length hread
  · cases h

end JsonQuery.Json
