import JsonQuery.Number.Nearest
import JsonQuery.Text.Fault

/-!
Decimal numerals: runs of digits, exponents, and the number that a numeral in parts stands for.
-/

namespace JsonQuery

namespace Text

def digits (text : List Char) : List Char := text.takeWhile Char.isDigit

def afterDigits (text : List Char) : List Char := text.dropWhile Char.isDigit

def startsWithDigit : List Char → Bool
  | c :: _ => c.isDigit
  | [] => false

def natOfDigits (digits : List Char) : Nat :=
  digits.foldl (fun n c => 10 * n + (c.toNat - '0'.toNat)) 0

theorem digits_append_afterDigits (text : List Char) : digits text ++ afterDigits text = text :=
  List.takeWhile_append_dropWhile

theorem afterDigits_length_le (text : List Char) : (afterDigits text).length ≤ text.length :=
  (List.dropWhile_suffix Char.isDigit).length_le

theorem afterDigits_length_lt {text : List Char} (h : startsWithDigit text = true) :
    (afterDigits text).length < text.length := by
  cases text with
  | nil => simp [startsWithDigit] at h
  | cons c rest =>
    simp only [startsWithDigit] at h
    have := afterDigits_length_le rest
    simp only [afterDigits, List.dropWhile_cons, h, if_true, List.length_cons] at *
    omega

def signed (negative : Bool) (n : Nat) : Int := if negative then -n else n

def minus : List Char → Bool × List Char
  | '-' :: rest => (true, rest)
  | text => (false, text)

def sign : List Char → Bool × List Char
  | '-' :: rest => (true, rest)
  | '+' :: rest => (false, rest)
  | text => (false, text)

theorem minus_length_le (text : List Char) : (minus text).2.length ≤ text.length := by
  unfold minus; split <;> simp

theorem sign_length_le (text : List Char) : (sign text).2.length ≤ text.length := by
  unfold sign; split <;> simp

variable {Cause : Type}

/-- The exponent behind its letter. Where it has no digits, `refuse` makes the fault from what
stands in their place. -/
def exponentDigits (refuse : List Char → Fault Cause) (text : List Char) :
    Except (Fault Cause) (Int × List Char) :=
  let (negative, rest) := sign text
  if startsWithDigit rest then
    .ok (signed negative (natOfDigits (digits rest)), afterDigits rest)
  else .error (refuse rest)

/-- The exponent, if its letter is there. A fault is made from the text that begins with the letter
and from what stands in the place of the digits. -/
def exponentPart (refuse : List Char → List Char → Fault Cause) (text : List Char) :
    Except (Fault Cause) (Int × List Char) :=
  match text with
  | 'e' :: rest => exponentDigits (refuse text) rest
  | 'E' :: rest => exponentDigits (refuse text) rest
  | text => .ok (0, text)

theorem exponentDigits_length {refuse : List Char → Fault Cause} {text rest : List Char}
    {exponent : Int} (h : exponentDigits refuse text = .ok (exponent, rest)) :
    rest.length ≤ text.length := by
  unfold exponentDigits at h
  have := sign_length_le text
  simp only at h
  split at h
  · rename_i hd
    cases h
    have := afterDigits_length_lt hd
    omega
  · cases h

theorem exponentPart_length {refuse : List Char → List Char → Fault Cause}
    {text rest : List Char} {exponent : Int}
    (h : exponentPart refuse text = .ok (exponent, rest)) : rest.length ≤ text.length := by
  unfold exponentPart at h
  split at h
  · exact Nat.le_succ_of_le (exponentDigits_length h)
  · exact Nat.le_succ_of_le (exponentDigits_length h)
  · cases h
    exact Nat.le_refl _

end Text

/-- A numeral in parts: its sign, the digits before and after the point, and its exponent. -/
structure Numeral where
  negative : Bool
  whole : List Char
  fraction : List Char
  exponent : Int

namespace Numeral

def decimal (n : Numeral) : Decimal :=
  ⟨Text.natOfDigits (n.whole ++ n.fraction), n.exponent - n.fraction.length⟩

def number (n : Numeral) : Number := Number.ofDecimal n.negative n.decimal

end Numeral

end JsonQuery
