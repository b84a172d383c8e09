import JsonQuery.Path.Basic
import JsonQuery.Value.Text

/-!
The canonical text of paths: brackets in place of dots, names in single quotes, conditions with all
their parentheses.
-/

namespace JsonQuery

namespace Selector

def text : Selector → List Char
  | name s => Text.quotedName s
  | index i => Text.ofInt i

/-- The selector in its brackets. -/
def segment (selector : Selector) : List Char := '[' :: (selector.text ++ [']'])

end Selector

namespace Slice

def bound : Option Int → List Char
  | some n => Text.ofInt n
  | none => []

def text (slice : Slice) : List Char :=
  bound slice.start ++ ':' :: bound slice.stop ++
    match slice.stride with
    | some n => ':' :: Text.ofInt n
    | none => []

end Slice

def Anchor.mark : Anchor → Char
  | current => '@'
  | root => '$'

def Reference.text (r : Reference) : List Char :=
  r.anchor.mark :: r.selectors.flatMap Selector.segment

/-- A string literal is written as names are, any other literal as in a document. -/
def Operand.text : Operand → List Char
  | reference r => r.text
  | literal (.string s) => Text.quotedName s
  | literal v => v.text .compact

def Comparison.mark : Comparison → String
  | eq => "=="
  | ne => "!="
  | lt => "<"
  | le => "<="
  | gt => ">"
  | ge => ">="

namespace Condition

/-- A condition without parentheses around the whole of a comparison or a reference. -/
def text : Condition → List Char
  | present r => r.text
  | compare left comparison right =>
    left.text ++ ' ' :: comparison.mark.toList ++ ' ' :: right.text
  | and left right => '(' :: (text left ++ " && ".toList ++ text right ++ [')'])
  | or left right => '(' :: (text left ++ " || ".toList ++ text right ++ [')'])
  | not inner => '!' :: '(' :: (text inner ++ [')'])

end Condition

namespace Path

mutual

/-- The canonical text of a path. -/
def text : Path → List Char
  | [] => []
  | step :: path => stepText step ++ text path

def stepText : Step → List Char
  | .root => ['$']
  | .select selector => selector.segment
  | .wildcard => "[*]".toList
  | .descent => "..".toList
  | .slice slice => '[' :: (slice.text ++ [']'])
  | .filter condition => "[?(".toList ++ condition.text ++ ")]".toList
  | .union selectors => '[' :: ([','].intercalate (selectors.map Selector.text) ++ [']'])
  | .dynamic path => '[' :: (text path ++ [']'])

end

end Path

end JsonQuery
