import JsonQuery.Path.Reading
import JsonQuery.Proofs.Number.Grammar
import JsonQuery.Proofs.Text.Quoted

/-!
The grammar of queries, each text with the path that it denotes. Parentheses, negations and dynamic
steps nest; the grammar counts how often they may still do so. Chains of `&&` and of `||` associate
to the left and parentheses leave nothing behind.
-/

namespace JsonQuery.Path

open Text (minusText IsDigits natOfDigits signed)
open Numeral (FractionText ExponentText)

/-- Characters with the property White_Space, if any. -/
def Blanks (s : List Char) : Prop := ∀ c ∈ s, Text.isBlank c = true

/-- What may follow a name never goes on with such a character, so a name is the longest run. -/
inductive NameText : List Char → String → Prop where
  | mk {s : List Char} (hne : s ≠ []) (hs : ∀ c ∈ s, isNameChar c = true) :
      NameText s (String.ofList s)

/-- Leading zeros are allowed, and the integer fits into 64 bits. -/
inductive IntegerText : List Char → Int → Prop where
  | mk {ds : List Char} (negative : Bool) (hd : IsDigits ds)
      (hn : InIndexRange (signed negative (natOfDigits ds))) :
      IntegerText (minusText negative ++ ds) (signed negative (natOfDigits ds))

/-- Leading zeros are allowed, and the number is finite. -/
inductive NumberText : List Char → Number → Prop where
  | mk {ds f fraction e : List Char} {exponent : Int} (negative : Bool) (hd : IsDigits ds)
      (hf : FractionText f fraction) (he : ExponentText e exponent)
      (hn : (Numeral.number ⟨negative, ds, fraction, exponent⟩).IsFinite) :
      NumberText (minusText negative ++ (ds ++ (f ++ e)))
        (Numeral.number ⟨negative, ds, fraction, exponent⟩)

inductive SelectorText : List Char → Selector → Prop where
  | name {s : List Char} {name : String} (hs : QuotedText s name) : SelectorText s (.name name)
  | index {s : List Char} {n : Int} (hs : IntegerText s n) : SelectorText s (.index n)

/-- A segment of a reference. No blanks stand before it or behind its dot. -/
inductive SegmentText : List Char → Selector → Prop where
  | name {s : List Char} {name : String} (hs : NameText s name) :
      SegmentText ('.' :: s) (.name name)
  | bracket {p s q : List Char} {selector : Selector} (hp : Blanks p)
      (hs : SelectorText s selector) (hq : Blanks q) :
      SegmentText ('[' :: (p ++ (s ++ (q ++ [']'])))) selector

inductive SegmentsText : List Char → List Selector → Prop where
  | nil : SegmentsText [] []
  | cons {s t : List Char} {selector : Selector} {selectors : List Selector}
      (hs : SegmentText s selector) (ht : SegmentsText t selectors) :
      SegmentsText (s ++ t) (selector :: selectors)

inductive OperandText : List Char → Operand → Prop where
  | reference {s : List Char} {selectors : List Selector} (anchor : Anchor)
      (hs : SegmentsText s selectors) :
      OperandText (anchor.mark :: s) (.reference ⟨anchor, selectors⟩)
  | string {s : List Char} {value : String} (hs : QuotedText s value) :
      OperandText s (.literal (.string value))
  | number {s : List Char} {x : Number} (hs : NumberText s x) :
      OperandText s (.literal (.number x))
  | trueWord : OperandText "true".toList (.literal (.boolean true))
  | falseWord : OperandText "false".toList (.literal (.boolean false))
  | nullWord : OperandText "null".toList (.literal .null)

/-- A reference alone or a comparison. A literal alone is no condition. -/
inductive ComparingText : List Char → Condition → Prop where
  | present {s : List Char} {r : Reference} (hs : OperandText s (.reference r)) :
      ComparingText s (.present r)
  | compare {s p q t : List Char} {left right : Operand} (comparison : Comparison)
      (hs : OperandText s left) (hp : Blanks p) (hq : Blanks q) (ht : OperandText t right) :
      ComparingText (s ++ (p ++ (comparison.mark.toList ++ (q ++ t))))
        (.compare left comparison right)

mutual

inductive UnaryText : Nat → List Char → Condition → Prop where
  | comparing {depth : Nat} {s : List Char} {c : Condition} (hs : ComparingText s c) :
      UnaryText depth s c
  | not {depth : Nat} {p s : List Char} {c : Condition} (hp : Blanks p)
      (hs : UnaryText depth s c) : UnaryText (depth + 1) ('!' :: (p ++ s)) (.not c)
  | group {depth : Nat} {p s q : List Char} {c : Condition} (hp : Blanks p)
      (hs : DisjunctionText depth s c) (hq : Blanks q) :
      UnaryText (depth + 1) ('(' :: (p ++ (s ++ (q ++ [')'])))) c

inductive ConjunctionText : Nat → List Char → Condition → Prop where
  | unary {depth : Nat} {s : List Char} {c : Condition} (hs : UnaryText depth s c) :
      ConjunctionText depth s c
  | and {depth : Nat} {s p q t : List Char} {left right : Condition}
      (hs : ConjunctionText depth s left) (hp : Blanks p) (hq : Blanks q)
      (ht : UnaryText depth t right) :
      ConjunctionText depth (s ++ (p ++ '&' :: '&' :: (q ++ t))) (.and left right)

inductive DisjunctionText : Nat → List Char → Condition → Prop where
  | conjunction {depth : Nat} {s : List Char} {c : Condition} (hs : ConjunctionText depth s c) :
      DisjunctionText depth s c
  | or {depth : Nat} {s p q t : List Char} {left right : Condition}
      (hs : DisjunctionText depth s left) (hp : Blanks p) (hq : Blanks q)
      (ht : ConjunctionText depth t right) :
      DisjunctionText depth (s ++ (p ++ '|' :: '|' :: (q ++ t))) (.or left right)

end

/-- An integer, if any. -/
inductive BoundText : List Char → Option Int → Prop where
  | none : BoundText [] none
  | some {s : List Char} {n : Int} (hs : IntegerText s n) : BoundText s (some n)

inductive SliceText : List Char → Slice → Prop where
  | bounds {s p q t : List Char} {start stop : Option Int} (hs : BoundText s start)
      (hp : Blanks p) (hq : Blanks q) (ht : BoundText t stop) :
      SliceText (s ++ (p ++ ':' :: (q ++ t))) ⟨start, stop, none⟩
  | stride {s p q t r u w : List Char} {start stop stride : Option Int} (hs : BoundText s start)
      (hp : Blanks p) (hq : Blanks q) (ht : BoundText t stop) (hr : Blanks r) (hu : Blanks u)
      (hw : BoundText w stride) (hzero : stride ≠ some 0) :
      SliceText (s ++ (p ++ ':' :: (q ++ (t ++ (r ++ ':' :: (u ++ w)))))) ⟨start, stop, stride⟩

inductive MoreSelectors : List Char → List Selector → Prop where
  | nil : MoreSelectors [] []
  | cons {p q s t : List Char} {selector : Selector} {selectors : List Selector} (hp : Blanks p)
      (hq : Blanks q) (hs : SelectorText s selector) (ht : MoreSelectors t selectors) :
      MoreSelectors (p ++ ',' :: (q ++ (s ++ t))) (selector :: selectors)

/-- A member name or a wildcard, behind dots. -/
inductive MemberText : List Char → Step → Prop where
  | name {s : List Char} {name : String} (hs : NameText s name) :
      MemberText s (.select (.name name))
  | wildcard : MemberText ['*'] .wildcard

mutual

/-- What stands in a bracket, without the blanks around it. -/
inductive ContentText : Nat → List Char → Step → Prop where
  | wildcard {depth : Nat} : ContentText depth ['*'] .wildcard
  | filter {depth : Nat} {p s : List Char} {c : Condition} (hp : Blanks p)
      (hs : DisjunctionText depth s c) : ContentText depth ('?' :: (p ++ s)) (.filter c)
  | path {depth : Nat} {s : List Char} {path : Path} (hs : StepsText depth s path) :
      ContentText (depth + 1) ('$' :: s) (.dynamic (.root :: path))
  | slice {depth : Nat} {s : List Char} {slice : Slice} (hs : SliceText s slice) :
      ContentText depth s (.slice slice)
  | selector {depth : Nat} {s : List Char} {selector : Selector}
      (hs : SelectorText s selector) : ContentText depth s (.select selector)
  | union {depth : Nat} {s t : List Char} {first second : Selector} {selectors : List Selector}
      (hs : SelectorText s first) (ht : MoreSelectors t (second :: selectors)) :
      ContentText depth (s ++ t) (.union (first :: second :: selectors))

inductive BracketText : Nat → List Char → Step → Prop where
  | mk {depth : Nat} {p s q : List Char} {step : Step} (hp : Blanks p)
      (hs : ContentText depth s step) (hq : Blanks q) :
      BracketText depth ('[' :: (p ++ (s ++ (q ++ [']'])))) step

/-- One step, or a descent and the step behind it. No blanks stand between two dots. -/
inductive StepText : Nat → List Char → Path → Prop where
  | dot {depth : Nat} {p s : List Char} {step : Step} (hp : Blanks p) (hs : MemberText s step) :
      StepText depth ('.' :: (p ++ s)) [step]
  | dots {depth : Nat} {p s : List Char} {step : Step} (hp : Blanks p) (hs : MemberText s step) :
      StepText depth ('.' :: '.' :: (p ++ s)) [.descent, step]
  | dotsBracket {depth : Nat} {p s : List Char} {step : Step} (hp : Blanks p)
      (hs : BracketText depth s step) : StepText depth ('.' :: '.' :: (p ++ s)) [.descent, step]
  | bracket {depth : Nat} {s : List Char} {step : Step} (hs : BracketText depth s step) :
      StepText depth s [step]

/-- Steps with blanks before each of them and behind the last. -/
inductive StepsText : Nat → List Char → Path → Prop where
  | blanks {depth : Nat} {p : List Char} (hp : Blanks p) : StepsText depth p []
  | step {depth : Nat} {p s t : List Char} {step path : Path} (hp : Blanks p)
      (hs : StepText depth s step) (ht : StepsText depth t path) :
      StepsText depth (p ++ (s ++ t)) (step ++ path)

end

/-- The texts of a query that nests up to the given number of times. -/
inductive QueryText : Nat → List Char → Path → Prop where
  | mk {depth : Nat} {p s : List Char} {path : Path} (hp : Blanks p)
      (hs : StepsText depth s path) : QueryText depth (p ++ '$' :: s) (.root :: path)

end JsonQuery.Path
