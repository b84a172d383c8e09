import JsonQuery.Value.Equality

/-!
Paths: what a query asks for, step by step. A condition is what a filter step asks of each child.
-/

namespace JsonQuery

/-- A name or an index: what picks one child. Negative indices count from the end. -/
inductive Selector where
  | name (s : String)
  | index (i : Int)
  deriving DecidableEq

/-- Bounds and stride of a slice. What is missing takes the value that the stride implies. -/
structure Slice where
  start : Option Int
  stop : Option Int
  stride : Option Int
  deriving DecidableEq

/-- Where a reference starts: at the child under test or at the root of the document. -/
inductive Anchor where
  | current
  | root
  deriving DecidableEq

structure Reference where
  anchor : Anchor
  selectors : List Selector
  deriving DecidableEq

inductive Operand where
  | reference (r : Reference)
  | literal (v : Value)

inductive Comparison where
  | eq
  | ne
  | lt
  | le
  | gt
  | ge
  deriving DecidableEq

inductive Condition where
  /-- The reference leads to a value. -/
  | present (r : Reference)
  | compare (left : Operand) (comparison : Comparison) (right : Operand)
  | and (left right : Condition)
  | or (left right : Condition)
  | not (inner : Condition)

inductive Step where
  | root
  | select (selector : Selector)
  | wildcard
  /-- The node itself and all that is below it. -/
  | descent
  | slice (slice : Slice)
  | filter (condition : Condition)
  | union (selectors : List Selector)
  /-- The children named by the values that a path selects in the whole document. -/
  | dynamic (path : List Step)

abbrev Path := List Step

namespace Path

mutual

/-- Whether the shape of a path allows one match at most. -/
def singular : Path → Bool
  | [] => true
  | step :: path => singularStep step && singular path

def singularStep : Step → Bool
  | .root => true
  | .select _ => true
  | .dynamic path => singular path
  | _ => false

end

end Path

/-- Equality of operands: literals are equal as values are. -/
def Operand.same : Operand → Operand → Bool
  | .reference r, .reference s => r == s
  | .literal v, .literal w => v.same w
  | _, _ => false

def Condition.same : Condition → Condition → Bool
  | .present r, .present s => r == s
  | .compare l c r, .compare l' c' r' => l.same l' && c == c' && r.same r'
  | .and l r, .and l' r' => same l l' && same r r'
  | .or l r, .or l' r' => same l l' && same r r'
  | .not c, .not c' => same c c'
  | _, _ => false

namespace Path

mutual

/-- Equality of paths, with the literals in conditions equal as values are. -/
def same : Path → Path → Bool
  | [], [] => true
  | step :: path, step' :: path' => sameStep step step' && same path path'
  | _, _ => false

def sameStep : Step → Step → Bool
  | .root, .root => true
  | .select s, .select s' => s == s'
  | .wildcard, .wildcard => true
  | .descent, .descent => true
  | .slice s, .slice s' => s == s'
  | .filter c, .filter c' => c.same c'
  | .union ss, .union ss' => ss == ss'
  | .dynamic path, .dynamic path' => same path path'
  | _, _ => false

end

end Path

end JsonQuery
