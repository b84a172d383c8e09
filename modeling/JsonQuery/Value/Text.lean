import JsonQuery.Number.Text
import JsonQuery.Text.Quoted
import JsonQuery.Value.Basic

/-!
The JSON text of a value, by recursion on the value. The compact layout has no white space. The
indented layout puts each member on a line of its own, indented by its depth, and a blank after
each colon.
-/

namespace JsonQuery

inductive Layout where
  | compact
  | indented (width : Nat)

namespace Layout

/-- What stands before a member at a depth, and before the closing bracket of its container. -/
def lineBreak (layout : Layout) (depth : Nat) : List Char :=
  match layout with
  | compact => []
  | indented width => '\n' :: List.replicate (width * depth) ' '

def colon : Layout → List Char
  | compact => [':']
  | indented _ => [':', ' ']

end Layout

namespace Value

mutual

/-- The text of a value that stands at a depth. -/
def textAt (layout : Layout) (depth : Nat) : Value → List Char
  | null => "null".toList
  | boolean b => if b then "true".toList else "false".toList
  | number x => x.text
  | string s => Text.jsonString s
  | array [] => ['[', ']']
  | array (element :: elements) =>
    '[' :: (layout.lineBreak (depth + 1) ++ textAt layout (depth + 1) element ++
      moreElements layout (depth + 1) elements ++ layout.lineBreak depth ++ [']'])
  | object [] => ['{', '}']
  | object ((key, value) :: members) =>
    '{' :: (layout.lineBreak (depth + 1) ++ Text.jsonString key ++ layout.colon ++
      textAt layout (depth + 1) value ++
      moreMembers layout (depth + 1) members ++ layout.lineBreak depth ++ ['}'])

/-- The elements after the first, each behind its comma. -/
def moreElements (layout : Layout) (depth : Nat) : List Value → List Char
  | [] => []
  | element :: elements =>
    ',' :: (layout.lineBreak depth ++ textAt layout depth element ++
      moreElements layout depth elements)

/-- The members after the first, each behind its comma. -/
def moreMembers (layout : Layout) (depth : Nat) : List (String × Value) → List Char
  | [] => []
  | (key, value) :: members =>
    ',' :: (layout.lineBreak depth ++ Text.jsonString key ++ layout.colon ++
      textAt layout depth value ++ moreMembers layout depth members)

end

def text (layout : Layout) (value : Value) : List Char := textAt layout 0 value

end Value

end JsonQuery
