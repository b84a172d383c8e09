import JsonQuery.Number.Numeral
import JsonQuery.Text.Hex
import JsonQuery.Toml.Item

/-!
Booleans, numbers, dates and times. Each is a word of letters, digits and a few marks; only between
a date and its time may there be a space.
-/

namespace JsonQuery.Toml

def isWordChar (c : Char) : Bool :=
  c.isAlphanum || c == '_' || c == '+' || c == '-' || c == '.' || c == ':'

/-- The digits of a number without the underscores, each of which must stand between two digits. -/
def ungrouped? (isDigit : Char → Bool) : List Char → Option (List Char)
  | [] => none
  | [d] => if isDigit d then some [d] else none
  | d :: '_' :: rest => if isDigit d then (ungrouped? isDigit rest).map (d :: ·) else none
  | d :: rest => if isDigit d then (ungrouped? isDigit rest).map (d :: ·) else none

/-- The digits of a whole part, which has no zero in front of other digits. -/
def wholeDigits? (text : List Char) : Option (List Char) :=
  match text with
  | '0' :: _ :: _ => none
  | text => ungrouped? Char.isDigit text

/-- The bound of the integers: they go from its negative to just below it. -/
def integerBound : Int := 0x8000000000000000

def inRange? (n : Int) : Option Int :=
  if -integerBound ≤ n ∧ n < integerBound then some n else none

/-- The number that digits denote in a base. -/
def natOfDigits? (base : Nat) (digits : List Char) : Option Nat := do
  let digits ← digits.mapM Text.hexValue?
  if digits.all (· < base) then return digits.foldl (fun n d => base * n + d) 0 else none

/-- The digits behind the mark of a base. -/
def based? (base : Nat) (text : List Char) : Option Int := do
  let digits ← ungrouped? (fun c => (Text.hexValue? c).any (· < base)) text
  inRange? (← natOfDigits? base digits)

def integer? : List Char → Option Int
  | '0' :: 'x' :: rest => based? 16 rest
  | '0' :: 'o' :: rest => based? 8 rest
  | '0' :: 'b' :: rest => based? 2 rest
  | word => do
    let (negative, rest) := Text.sign word
    inRange? (Text.signed negative (Text.natOfDigits (← wholeDigits? rest)))

/-- A word up to a character that satisfies a test, and what follows that character. -/
def cut (test : Char → Bool) (word : List Char) : List Char × Option (List Char) :=
  let front := word.takeWhile (!test ·)
  match word.drop front.length with
  | [] => (front, none)
  | _ :: rest => (front, some rest)

def exponent? (word : List Char) : Option Int := do
  let (negative, rest) := Text.sign word
  return Text.signed negative (Text.natOfDigits (← ungrouped? Char.isDigit rest))

def decimal? (negative : Bool) (word : List Char) : Option Number := do
  let (mantissa, exponent) := cut (fun c => c == 'e' || c == 'E') word
  let (whole, fraction) := cut (· == '.') mantissa
  if fraction.isNone ∧ exponent.isNone then none
  else
    let whole ← wholeDigits? whole
    let fraction ← match fraction with
      | some fraction => ungrouped? Char.isDigit fraction
      | none => some []
    let exponent ← match exponent with
      | some exponent => exponent? exponent
      | none => some 0
    return (Numeral.mk negative whole fraction exponent).number

/-- A real number. One above all finite numbers must say so. -/
def real? (word : List Char) : Option Number :=
  let (negative, rest) := Text.sign word
  match rest with
  | ['i', 'n', 'f'] => some (.ofRank negative Number.infinityRank)
  | ['n', 'a', 'n'] => some (.notANumber negative)
  | rest => do
    let x ← decimal? negative rest
    if x.IsFinite ∨ x.negative then return x else none

def pair? : List Char → Option (Nat × List Char)
  | a :: b :: rest =>
    if a.isDigit ∧ b.isDigit then some (Text.natOfDigits [a, b], rest) else none
  | _ => none

def daysIn (year month : Nat) : Nat :=
  if month = 2 then
    if year % 4 = 0 ∧ (year % 100 ≠ 0 ∨ year % 400 = 0) then 29 else 28
  else if month = 4 ∨ month = 6 ∨ month = 9 ∨ month = 11 then 30
  else 31

def afterDate? (word : List Char) : Option (List Char) := do
  let (century, rest) ← pair? word
  let (year, rest) ← pair? rest
  match rest with
  | '-' :: rest => do
    let (month, rest) ← pair? rest
    match rest with
    | '-' :: rest => do
      let (day, rest) ← pair? rest
      if 1 ≤ month ∧ month ≤ 12 ∧ 1 ≤ day ∧ day ≤ daysIn (100 * century + year) month then
        return rest
      else none
    | _ => none
  | _ => none

def afterTime? (word : List Char) : Option (List Char) := do
  let (hour, rest) ← pair? word
  match rest with
  | ':' :: rest => do
    let (minute, rest) ← pair? rest
    match rest with
    | ':' :: rest => do
      let (second, rest) ← pair? rest
      if hour ≤ 23 ∧ minute ≤ 59 ∧ second ≤ 60 then
        match rest with
        | '.' :: rest => if Text.startsWithDigit rest then return Text.afterDigits rest else none
        | rest => return rest
      else none
    | _ => none
  | _ => none

/-- The offset of a time from the standard one, if there is one. -/
def isOffset : List Char → Bool
  | [] => true
  | ['Z'] => true
  | ['z'] => true
  | c :: rest =>
    (c == '+' || c == '-') &&
      match pair? rest with
      | some (hour, ':' :: rest) =>
        match pair? rest with
        | some (minute, []) => hour ≤ 23 && minute ≤ 59
        | _ => false
      | _ => false

/-- A time of day with an offset if any. -/
def isDayTime (word : List Char) : Bool := (afterTime? word).any isOffset

/-- A date, a time of day without an offset, or a date and a time in one word. -/
def isMoment (word : List Char) : Bool :=
  afterTime? word == some [] ||
    match afterDate? word with
    | some [] => true
    | some (c :: rest) => (c == 'T' || c == 't' || c == ' ') && isDayTime rest
    | none => false

def ofWord? (word : List Char) : Option Item :=
  if word = ['t', 'r', 'u', 'e'] then some (.boolean true)
  else if word = ['f', 'a', 'l', 's', 'e'] then some (.boolean false)
  else if isMoment word then some (.moment word)
  else
    match integer? word with
    | some n => some (.integer n)
    | none => (real? word).map .real

theorem ofWord?_nil : ofWord? [] = none := by decide +kernel

/-- The word at the front of a text. After a date, a space and a time belong to it. -/
def word (text : List Char) : List Char × List Char :=
  let front := text.takeWhile isWordChar
  match text.drop front.length with
  | ' ' :: rest =>
    let time := rest.takeWhile isWordChar
    if afterDate? front = some [] ∧ isDayTime time then
      (front ++ ' ' :: time, rest.drop time.length)
    else (front, ' ' :: rest)
  | rest => (front, rest)

/-- A boolean, number, date or time at the front of a text. -/
def scalarItem? (text : List Char) : Option (Item × List Char) :=
  let (word, rest) := word text
  (ofWord? word).map (·, rest)

/-- A word and what follows it make up the text. -/
theorem word_append (text : List Char) : (word text).1 ++ (word text).2 = text := by
  have h : ∀ l : List Char, l.takeWhile isWordChar ++
      l.drop (l.takeWhile isWordChar).length = l := fun l =>
    List.prefix_iff_eq_append.mp (List.takeWhile_prefix isWordChar)
  simp only [word]
  split
  · rename_i rest hr
    split
    · rw [List.append_assoc, List.cons_append, h rest, ← hr, h text]
    · rw [← hr, h text]
  · exact h text

theorem scalarItem?_length {item : Item} {text rest : List Char}
    (h : scalarItem? text = some (item, rest)) : rest.length < text.length := by
  simp only [scalarItem?, Option.map_eq_some_iff, Prod.mk.injEq] at h
  obtain ⟨_, hw, -, rfl⟩ := h
  have ha := congrArg List.length (word_append text)
  have : (word text).1 ≠ [] := by
    intro he
    rw [he, ofWord?_nil] at hw
    cases hw
  have := List.length_pos_iff.mpr this
  simp only [List.length_append] at ha
  omega

end JsonQuery.Toml
