import JsonQuery.Proofs.Number.Grammar
import JsonQuery.Proofs.Toml.Members

/-!
The grammar of TOML documents without headers (TOML 1.0): lines that assign an item to a key each,
among blank lines and comments. Arrays and inline tables nest as deep as the reader takes them.
-/

namespace JsonQuery.Toml

/-- Spaces and tabs, if any. -/
def Spaces (s : List Char) : Prop := ∀ c ∈ s, isSpace c = true

theorem spaces_nil : Spaces [] := fun _ h => by cases h

inductive ClosingText : List Char → Prop where
  | space {p : List Char} (hp : Spaces p) : ClosingText p
  | comment {p s : List Char} (hp : Spaces p) (hs : ∀ c ∈ s, isPlain c = true) :
      ClosingText (p ++ '#' :: s)

inductive LineBreak : List Char → Prop where
  | feed : LineBreak ['\n']
  | returnFeed : LineBreak ['\r', '\n']

/-- Space, comments and line ends. -/
inductive BlankText : List Char → Prop where
  | space {p : List Char} (hp : Spaces p) : BlankText p
  | line {s b t : List Char} (hs : ClosingText s) (hb : LineBreak b) (ht : BlankText t) :
      BlankText (s ++ (b ++ t))

/-- What stands behind a backslash, with the character that it names. -/
inductive EscapeText : List Char → Char → Prop where
  | letter {letter c : Char} (h : escapedChar? letter = some c) : EscapeText [letter] c
  | four {ds : List Char} {values : List Nat} {c : Char} (hlength : ds.length = 4)
      (hd : ds.mapM Text.hexValue? = some values)
      (hc : scalar? (values.foldl (fun n d => 16 * n + d) 0) = some c) : EscapeText ('u' :: ds) c
  | eight {ds : List Char} {values : List Nat} {c : Char} (hlength : ds.length = 8)
      (hd : ds.mapM Text.hexValue? = some values)
      (hc : scalar? (values.foldl (fun n d => 16 * n + d) 0) = some c) : EscapeText ('U' :: ds) c

/-- What stands between double quotes, with its content. -/
inductive BasicText : List Char → List Char → Prop where
  | nil : BasicText [] []
  | plain {c : Char} {t cs : List Char} (hc : isPlain c = true) (hquote : c ≠ '"')
      (hbackslash : c ≠ '\\') (ht : BasicText t cs) : BasicText (c :: t) (c :: cs)
  | escape {s t cs : List Char} {c : Char} (hs : EscapeText s c) (ht : BasicText t cs) :
      BasicText ('\\' :: (s ++ t)) (c :: cs)

/-- A string on one line, with its content. -/
inductive QuotedText : List Char → List Char → Prop where
  | basic {s cs : List Char} (hs : BasicText s cs) : QuotedText ('"' :: (s ++ ['"'])) cs
  | literal {cs : List Char} (h : ∀ c ∈ cs, c ≠ '\'' ∧ isPlain c = true) :
      QuotedText ('\'' :: (cs ++ ['\''])) cs

/-- One part of a string of several lines that does not begin with its quote, with its content. -/
inductive PartText (quote : Char) : List Char → List Char → Prop where
  | lineBreak {b : List Char} (hb : LineBreak b) : PartText quote b ['\n']
  | plain {c : Char} (hc : isPlain c = true) (hquote : c ≠ quote)
      (hbackslash : quote = '"' → c ≠ '\\') : PartText quote [c] [c]
  | escape {s : List Char} {c : Char} (hquote : quote = '"') (hs : EscapeText s c) :
      PartText quote ('\\' :: s) [c]

/-- What no space or line end is in front of. -/
def Solid (s : List Char) : Prop := ∀ c ∈ s.head?, c ≠ ' ' ∧ c ≠ '\t' ∧ c ≠ '\n' ∧ c ≠ '\r'

/-- Spaces and line ends, if any. -/
inductive GapText : List Char → Prop where
  | nil : GapText []
  | space {c : Char} {t : List Char} (hc : isSpace c = true) (ht : GapText t) : GapText (c :: t)
  | lineBreak {b t : List Char} (hb : LineBreak b) (ht : GapText t) : GapText (b ++ t)

/-- A string of several lines behind its opening quotes, with its content. One or two quotes may
stand anywhere in it, the end included. A backslash at the end of a line joins what stands behind
the gap. -/
inductive MultilineText (quote : Char) : List Char → List Char → Prop where
  | close {k : Nat} (hk : k ≤ 2) :
      MultilineText quote (List.replicate (k + 3) quote) (List.replicate k quote)
  | part {k : Nat} {s t cs ds : List Char} (hk : k ≤ 2) (hs : PartText quote s cs)
      (ht : MultilineText quote t ds) :
      MultilineText quote (List.replicate k quote ++ (s ++ t))
        (List.replicate k quote ++ (cs ++ ds))
  | joined {k : Nat} {p b q t ds : List Char} (hquote : quote = '"') (hk : k ≤ 2) (hp : Spaces p)
      (hb : LineBreak b) (hq : GapText q) (hsolid : Solid t) (ht : MultilineText quote t ds) :
      MultilineText quote (List.replicate k quote ++ '\\' :: (p ++ (b ++ (q ++ t))))
        (List.replicate k quote ++ ds)

inductive StringText : List Char → List Char → Prop where
  | line {s cs : List Char} (hs : QuotedText s cs) : StringText s cs
  | lines {quote : Char} {s cs : List Char} (hquote : quote = '"' ∨ quote = '\'')
      (hs : MultilineText quote s cs) (hbreak : ∀ c ∈ s.head?, c ≠ '\n' ∧ c ≠ '\r') :
      StringText (quote :: quote :: quote :: s) cs
  | linesBelow {quote : Char} {b s cs : List Char} (hquote : quote = '"' ∨ quote = '\'')
      (hb : LineBreak b) (hs : MultilineText quote s cs) :
      StringText (quote :: quote :: quote :: (b ++ s)) cs

/-- A key without dots. -/
inductive PlainKeyText : List Char → String → Prop where
  | bare {s : List Char} (hne : s ≠ []) (h : ∀ c ∈ s, isBare c = true) :
      PlainKeyText s (String.ofList s)
  | quoted {s cs : List Char} (hs : QuotedText s cs) : PlainKeyText s (String.ofList cs)

/-- The keys behind the first one, each behind its dot, with space around the dots and at the
end. -/
inductive MoreKeys : List Char → List String → Prop where
  | nil {p : List Char} (hp : Spaces p) : MoreKeys p []
  | cons {p q s t : List Char} {key : String} {keys : List String} (hp : Spaces p) (hq : Spaces q)
      (hs : PlainKeyText s key) (ht : MoreKeys t keys) :
      MoreKeys (p ++ '.' :: (q ++ (s ++ t))) (key :: keys)

/-- A dotted key and the space behind it. -/
inductive KeyText : List Char → DottedKey → Prop where
  | mk {s t : List Char} {first : String} {others : List String} (hs : PlainKeyText s first)
      (ht : MoreKeys t others) (hlength : others.length < maxKeys) :
      KeyText (s ++ t) (.ofKeys first others)

/-- Digits of a kind, with the text in which an underscore may stand between two of them. -/
inductive GroupedText (isDigit : Char → Bool) : List Char → List Char → Prop where
  | last {d : Char} (h : isDigit d = true) : GroupedText isDigit [d] [d]
  | next {d : Char} {t ds : List Char} (h : isDigit d = true) (ht : GroupedText isDigit t ds) :
      GroupedText isDigit (d :: t) (d :: ds)
  | group {d : Char} {t ds : List Char} (h : isDigit d = true) (ht : GroupedText isDigit t ds) :
      GroupedText isDigit (d :: '_' :: t) (d :: ds)

/-- The digits of a whole part: no zero stands in front of other digits. -/
structure WholeText (t ds : List Char) : Prop where
  grouped : GroupedText Char.isDigit t ds
  lead : t = ['0'] ∨ t.head? ≠ some '0'

/-- The bases other than ten, each with the letter that marks it. -/
inductive BaseMark : Char → Nat → Prop where
  | hexadecimal : BaseMark 'x' 16
  | octal : BaseMark 'o' 8
  | binary : BaseMark 'b' 2

def isDigitOf (base : Nat) (c : Char) : Bool := (Text.hexValue? c).any (· < base)

def InRange (n : Int) : Prop := -integerBound ≤ n ∧ n < integerBound

inductive IntegerText : List Char → Int → Prop where
  | decimal {s t ds : List Char} {negative : Bool} (hs : Text.SignText s negative)
      (ht : WholeText t ds) (hn : InRange (Text.signed negative (Text.natOfDigits ds))) :
      IntegerText (s ++ t) (Text.signed negative (Text.natOfDigits ds))
  | based {mark : Char} {base : Nat} {t ds : List Char} {values : List Nat}
      (hm : BaseMark mark base) (ht : GroupedText (isDigitOf base) t ds)
      (hv : ds.mapM Text.hexValue? = some values)
      (hn : InRange (values.foldl (fun n d => base * n + d) 0 : Nat)) :
      IntegerText ('0' :: mark :: t) (values.foldl (fun n d => base * n + d) 0 : Nat)

inductive FractionText : List Char → List Char → Prop where
  | mk {t ds : List Char} (ht : GroupedText Char.isDigit t ds) : FractionText ('.' :: t) ds

inductive ExponentText : List Char → Int → Prop where
  | mk {mark : Char} {s t ds : List Char} {negative : Bool} (hm : mark = 'e' ∨ mark = 'E')
      (hs : Text.SignText s negative) (ht : GroupedText Char.isDigit t ds) :
      ExponentText (mark :: (s ++ t)) (Text.signed negative (Text.natOfDigits ds))

/-- The numerals that are not integers: they have a fraction, an exponent or both. -/
inductive DecimalText : List Char → Numeral → Prop where
  | fraction {s w f whole fraction : List Char} {negative : Bool} (hs : Text.SignText s negative)
      (hw : WholeText w whole) (hf : FractionText f fraction) :
      DecimalText (s ++ (w ++ f)) ⟨negative, whole, fraction, 0⟩
  | exponent {s w e whole : List Char} {exponent : Int} {negative : Bool}
      (hs : Text.SignText s negative) (hw : WholeText w whole) (he : ExponentText e exponent) :
      DecimalText (s ++ (w ++ e)) ⟨negative, whole, [], exponent⟩
  | both {s w f e whole fraction : List Char} {exponent : Int} {negative : Bool}
      (hs : Text.SignText s negative) (hw : WholeText w whole) (hf : FractionText f fraction)
      (he : ExponentText e exponent) :
      DecimalText (s ++ (w ++ (f ++ e))) ⟨negative, whole, fraction, exponent⟩

/-- The texts of a real number. A decimal is not too great, infinity has a word of its own. -/
inductive RealText : List Char → Number → Prop where
  | decimal {s : List Char} {n : Numeral} (hs : DecimalText s n)
      (hn : n.number.IsFinite ∨ n.number.negative = true) : RealText s n.number
  | infinity {s : List Char} {negative : Bool} (hs : Text.SignText s negative) :
      RealText (s ++ ['i', 'n', 'f']) (.ofRank negative Number.infinityRank)
  | notANumber {s : List Char} {negative : Bool} (hs : Text.SignText s negative) :
      RealText (s ++ ['n', 'a', 'n']) (.notANumber negative)

/-- Two digits, with the number that they denote. -/
inductive PairText : List Char → Nat → Prop where
  | mk {a b : Char} (ha : a.isDigit = true) (hb : b.isDigit = true) :
      PairText [a, b] (Text.natOfDigits [a, b])

/-- A date of the calendar. -/
inductive DateText : List Char → Prop where
  | mk {c y m d : List Char} {century year month day : Nat} (hc : PairText c century)
      (hy : PairText y year) (hm : PairText m month) (hd : PairText d day)
      (hmonth : 1 ≤ month ∧ month ≤ 12)
      (hday : 1 ≤ day ∧ day ≤ daysIn (100 * century + year) month) :
      DateText (c ++ (y ++ '-' :: (m ++ '-' :: d)))

/-- A time of day to the second. -/
inductive SecondText : List Char → Prop where
  | mk {h m s : List Char} {hour minute second : Nat} (hh : PairText h hour)
      (hm : PairText m minute) (hs : PairText s second)
      (hbound : hour ≤ 23 ∧ minute ≤ 59 ∧ second ≤ 60) :
      SecondText (h ++ ':' :: (m ++ ':' :: s))

/-- A time of day, perhaps with a fraction of its second. -/
inductive TimeText : List Char → Prop where
  | whole {s : List Char} (hs : SecondText s) : TimeText s
  | fraction {s ds : List Char} (hs : SecondText s) (hd : Text.IsDigits ds) :
      TimeText (s ++ '.' :: ds)

inductive OffsetText : List Char → Prop where
  | none : OffsetText []
  | zero {c : Char} (hc : c = 'Z' ∨ c = 'z') : OffsetText [c]
  | mk {c : Char} {h m : List Char} {hour minute : Nat} (hc : c = '+' ∨ c = '-')
      (hh : PairText h hour) (hm : PairText m minute) (hbound : hour ≤ 23 ∧ minute ≤ 59) :
      OffsetText (c :: (h ++ ':' :: m))

/-- A date, a time or both. -/
inductive MomentText : List Char → Prop where
  | date {s : List Char} (hs : DateText s) : MomentText s
  | time {s : List Char} (hs : TimeText s) : MomentText s
  | both {s t o : List Char} {c : Char} (hs : DateText s) (hc : c = 'T' ∨ c = 't' ∨ c = ' ')
      (ht : TimeText t) (ho : OffsetText o) : MomentText (s ++ c :: (t ++ o))

/-- The items that have no parts. -/
inductive ScalarText : List Char → Item → Prop where
  | trueWord : ScalarText "true".toList (.boolean true)
  | falseWord : ScalarText "false".toList (.boolean false)
  | integer {s : List Char} {n : Int} (hs : IntegerText s n) : ScalarText s (.integer n)
  | real {s : List Char} {x : Number} (hs : RealText s x) : ScalarText s (.real x)
  | moment {s : List Char} (hs : MomentText s) : ScalarText s (.moment s)
  | string {s cs : List Char} (hs : StringText s cs) : ScalarText s (.string (String.ofList cs))

/-- The rest of an array behind its opening bracket or behind a comma. -/
inductive ElementsText (IsItem : List Char → Item → Prop) : List Char → List Item → Prop where
  | close {p : List Char} (hp : BlankText p) : ElementsText IsItem (p ++ [']']) []
  | last {p s q : List Char} {element : Item} (hp : BlankText p) (hs : IsItem s element)
      (hq : BlankText q) : ElementsText IsItem (p ++ (s ++ (q ++ [']']))) [element]
  | cons {p s q t : List Char} {element : Item} {elements : List Item} (hp : BlankText p)
      (hs : IsItem s element) (hq : BlankText q) (ht : ElementsText IsItem t elements) :
      ElementsText IsItem (p ++ (s ++ (q ++ ',' :: t))) (element :: elements)

/-- A key, the sign of equality and an item. -/
inductive AssignmentText (IsItem : List Char → Item → Prop) : List Char → Assignment → Prop where
  | mk {s p t : List Char} {key : DottedKey} {item : Item} (hs : KeyText s key) (hp : Spaces p)
      (ht : IsItem t item) : AssignmentText IsItem (s ++ '=' :: (p ++ t)) ⟨key, item⟩

/-- The rest of an inline table behind its opening brace or behind a comma. -/
inductive PairsText (IsItem : List Char → Item → Prop) : List Char → List Assignment → Prop where
  | last {p s q : List Char} {assigned : Assignment} (hp : Spaces p)
      (hs : AssignmentText IsItem s assigned) (hq : Spaces q) :
      PairsText IsItem (p ++ (s ++ (q ++ ['}']))) [assigned]
  | cons {p s q t : List Char} {assigned : Assignment} {others : List Assignment} (hp : Spaces p)
      (hs : AssignmentText IsItem s assigned) (hq : Spaces q) (ht : PairsText IsItem t others) :
      PairsText IsItem (p ++ (s ++ (q ++ ',' :: t))) (assigned :: others)

/-- An item whose parts, if it has any, are of the given kind. No key of an inline table is in the
way of another one. -/
inductive NestedText (IsItem : List Char → Item → Prop) : List Char → Item → Prop where
  | scalar {s : List Char} {item : Item} (hs : ScalarText s item) : NestedText IsItem s item
  | array {s : List Char} {elements : List Item} (hs : ElementsText IsItem s elements) :
      NestedText IsItem ('[' :: s) (.array elements)
  | emptyTable {p : List Char} (hp : Spaces p) :
      NestedText IsItem ('{' :: (p ++ ['}'])) (.table .inline [])
  | table {s : List Char} {assigned : List Assignment} (hs : PairsText IsItem s assigned)
      (hapart : assigned.Pairwise fun a b => a.key.Apart b.key) :
      NestedText IsItem ('{' :: s) (.table .inline (Members.ofAssigned assigned))

/-- An item in which arrays and inline tables are nested to the given depth at most. -/
def ItemText : Nat → List Char → Item → Prop
  | 0 => ScalarText
  | depth + 1 => NestedText (ItemText depth)

theorem ScalarText.item {s : List Char} {item : Item} (h : ScalarText s item) (depth : Nat) :
    ItemText depth s item := by
  cases depth with
  | zero => exact h
  | succ depth => exact .scalar h

/-- A line without its end, with what it assigns. -/
inductive LineText : List Char → List Assignment → Prop where
  | blank {s : List Char} (hs : ClosingText s) : LineText s []
  | assignment {p s t : List Char} {assigned : Assignment} (hp : Spaces p)
      (hs : AssignmentText (ItemText maxDepth) s assigned) (ht : ClosingText t) :
      LineText (p ++ (s ++ t)) [assigned]

/-- Lines, with what they assign in their order. -/
inductive LinesText : List Char → List Assignment → Prop where
  | last {s : List Char} {assigned : List Assignment} (hs : LineText s assigned) :
      LinesText s assigned
  | cons {s b t : List Char} {first others : List Assignment} (hs : LineText s first)
      (hb : LineBreak b) (ht : LinesText t others) : LinesText (s ++ (b ++ t)) (first ++ others)

/-- A document without headers: lines, and a byte order mark in front if any. -/
inductive DocumentText : List Char → List Assignment → Prop where
  | plain {s : List Char} {assigned : List Assignment} (hs : LinesText s assigned) :
      DocumentText s assigned
  | marked {s : List Char} {assigned : List Assignment} (hs : LinesText s assigned) :
      DocumentText ('\uFEFF' :: s) assigned

end JsonQuery.Toml
