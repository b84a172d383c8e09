import JsonQuery.Number.Numeral
import JsonQuery.Path.Fault
import JsonQuery.Text.Blank
import JsonQuery.Text.Hex
import JsonQuery.Text.Numeric

/-!
The smallest parts of a query: member names, quoted names, integers and number literals. Each reader
takes at least one character of what it accepts.
-/

namespace JsonQuery.Path

open Text (startsWithDigit digits afterDigits natOfDigits skipBlank bind_eq_ok)

def isNameChar (c : Char) : Bool := Text.isAlphanumeric c || c == '_' || c == '-'

/-- A member name: the longest run of name characters, which must not be empty. -/
def memberName (expected : Expected) (text : List Char) : Except Fault (String × List Char) :=
  match text.takeWhile isNameChar with
  | [] => malformed (.unexpected expected) text
  | name => .ok (String.ofList name, text.dropWhile isNameChar)

theorem memberName_length {expected : Expected} {text rest : List Char} {name : String}
    (h : memberName expected text = .ok (name, rest)) : rest.length < text.length := by
  unfold memberName at h
  split at h
  · cases h
  · rename_i name' hne
    cases h
    have happ : text.takeWhile isNameChar ++ text.dropWhile isNameChar = text :=
      List.takeWhile_append_dropWhile
    have hlen := congrArg List.length happ
    have : 0 < (text.takeWhile isNameChar).length := List.length_pos_iff.mpr hne
    simp only [List.length_append] at hlen
    omega

/-- In queries single quotes may be escaped, too. -/
def unescape? : Char → Option Char
  | 'n' => some '\n'
  | 't' => some '\t'
  | 'r' => some '\r'
  | 'b' => some '\x08'
  | 'f' => some '\x0c'
  | '/' => some '/'
  | '\\' => some '\\'
  | '\'' => some '\''
  | '"' => some '"'
  | _ => none

/-- What follows an opening quote, up to the closing one; the characters in `done` were before. -/
def quotedTail (quote : Char) (done : List Char) (text : List Char) :
    Except Fault (String × List Char) :=
  match text with
  | [] => malformed (.unexpected (.closingQuote quote)) []
  | '\\' :: [] => malformed .escape text
  | '\\' :: 'u' :: rest =>
    match _h : Text.escapedUnits rest with
    | .ok (c, rest') => quotedTail quote (c :: done) rest'
    | .error _ => malformed .unicode text
  | '\\' :: letter :: rest =>
    match unescape? letter with
    | some c => quotedTail quote (c :: done) rest
    | none => malformed .escape text
  | c :: rest =>
    if c = quote then .ok (String.ofList done.reverse, rest)
    else quotedTail quote (c :: done) rest
  termination_by text.length
  decreasing_by
    · have := Text.escapedUnits_length _h
      simp only [List.length_cons]
      omega
    all_goals simp only [List.length_cons]; omega

theorem quotedTail_length {quote : Char} {done text rest : List Char} {name : String}
    (h : quotedTail quote done text = .ok (name, rest)) : rest.length < text.length := by
  fun_induction quotedTail quote done text with
  | case1 => cases h
  | case2 => cases h
  | case3 done rest₁ c rest₂ h₁ ih =>
    have := ih h
    have := Text.escapedUnits_length h₁
    simp only [List.length_cons]
    omega
  | case4 => cases h
  | case5 done letter rest₁ _ c _ ih =>
    have := ih h
    simp only [List.length_cons]
    omega
  | case6 => cases h
  | case7 done rest' =>
    cases h
    simp
  | case8 done c rest₁ _ _ _ _ ih =>
    have := ih h
    simp only [List.length_cons]
    omega

def isQuote (c : Char) : Bool := c == '\'' || c == '"'

def startsInteger (c : Char) : Bool := c == '-' || c.isDigit

/-- The integers that indices, bounds and strides may be. -/
def InIndexRange (n : Int) : Prop := -0x8000000000000000 ≤ n ∧ n < 0x8000000000000000

instance (n : Int) : Decidable (InIndexRange n) := inferInstanceAs (Decidable (_ ∧ _))

/-- An integer with or without a minus sign; leading zeros are allowed. -/
def integer (text : List Char) : Except Fault (Int × List Char) :=
  let (negative, rest) := Text.minus text
  if startsWithDigit rest then
    let n := Text.signed negative (natOfDigits (digits rest))
    if InIndexRange n then .ok (n, afterDigits rest)
    else malformed (.number (Text.before text (afterDigits rest))) text
  else
    malformed .noNumber text

theorem integer_length {text rest : List Char} {n : Int} (h : integer text = .ok (n, rest)) :
    rest.length < text.length := by
  unfold integer at h
  have := Text.minus_length_le text
  simp only at h
  split at h
  · rename_i hd
    have := Text.afterDigits_length_lt hd
    split at h
    · cases h
      omega
    · cases h
  · cases h

/-- An integer behind blanks, if there is one. -/
def integer? (text : List Char) : Except Fault (Option Int × List Char) :=
  match skipBlank text with
  | c :: rest =>
    if startsInteger c then do
      let (n, rest) ← integer (c :: rest)
      return (some n, rest)
    else .ok (none, c :: rest)
  | [] => .ok (none, [])

theorem integer?_length {text rest : List Char} {n : Option Int}
    (h : integer? text = .ok (n, rest)) : rest.length ≤ text.length := by
  unfold integer? at h
  have hb := Text.skipBlank_length_le text
  split at h
  · rename_i hs
    rw [hs] at hb
    split at h
    · obtain ⟨⟨n', rest'⟩, hread, h⟩ := bind_eq_ok.mp h
      cases h
      have := integer_length hread
      omega
    · cases h
      exact hb
  · cases h
    exact Nat.zero_le _

def fractionPart (text : List Char) : List Char × List Char :=
  match text with
  | '.' :: rest => if startsWithDigit rest then (digits rest, afterDigits rest) else ([], text)
  | text => ([], text)

def exponentPart : Reader Int := Text.exponentPart fun text _ => ⟨.malformed .exponent, text⟩

/-- A number literal. It may have leading zeros, and a point without digits is not part of it. -/
def numberLiteral (text : List Char) : Except Fault (Number × List Char) :=
  let (negative, rest) := Text.minus text
  if startsWithDigit rest then do
    let whole := digits rest
    let (fraction, rest) := fractionPart (afterDigits rest)
    let (exponent, rest) ← exponentPart rest
    let x := Numeral.number ⟨negative, whole, fraction, exponent⟩
    if x.IsFinite then return (x, rest)
    else malformed (.number (Text.before text rest)) text
  else
    malformed .noNumber text

theorem fractionPart_length_le (text : List Char) :
    (fractionPart text).2.length ≤ text.length := by
  unfold fractionPart
  split
  · split
    · rename_i hd
      have := Text.afterDigits_length_lt hd
      simp only [List.length_cons]
      omega
    · simp
  · simp

theorem numberLiteral_length {text rest : List Char} {x : Number}
    (h : numberLiteral text = .ok (x, rest)) : rest.length < text.length := by
  simp only [numberLiteral] at h
  have := Text.minus_length_le text
  split at h
  · rename_i hd
    obtain ⟨read, hread, h⟩ := bind_eq_ok.mp h
    have := Text.afterDigits_length_lt hd
    have := fractionPart_length_le (afterDigits (Text.minus text).2)
    have := Text.exponentPart_length hread
    split at h
    · cases h
      omega
    · cases h
  · cases h

end JsonQuery.Path
