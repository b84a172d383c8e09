import JsonQuery.Path.Basic

/-!
When a condition holds of a value. A comparison with an operand that leads nowhere is false, the
one for inequality too. Numbers are ordered among each other and strings among each other; no other
values are.
-/

namespace JsonQuery

def Selector.child? : Selector → Value → Option Value
  | name k, v => v.member? k
  | index i, v => v.element? i

def Selector.follow? : List Selector → Value → Option Value
  | [], v => some v
  | selector :: selectors, v => (selector.child? v).bind (follow? selectors)

namespace Reference

def resolve? (r : Reference) (root current : Value) : Option Value :=
  Selector.follow? r.selectors (match r.anchor with | .current => current | .root => root)

end Reference

def Operand.value? (root current : Value) : Operand → Option Value
  | reference r => r.resolve? root current
  | literal v => some v

/-- The order of two values, where they have one. Strings are ordered by their code points. -/
def Value.order? : Value → Value → Option Ordering
  | number x, number y => x.order y
  | string s, string t => some (compare s t)
  | _, _ => none

def Comparison.holds (comparison : Comparison) (left right : Value) : Bool :=
  match comparison with
  | eq => left.same right
  | ne => !left.same right
  | lt => left.order? right == some .lt
  | le => left.order? right == some .lt || left.order? right == some .eq
  | gt => left.order? right == some .gt
  | ge => left.order? right == some .gt || left.order? right == some .eq

namespace Condition

/-- Whether a condition holds of the value `current` in the document `root`. -/
def holds (root current : Value) : Condition → Bool
  | present r => (r.resolve? root current).isSome
  | compare left comparison right =>
    match left.value? root current, right.value? root current with
    | some l, some r => comparison.holds l r
    -- a side that leads nowhere is unequal to nothing either
    | _, _ => false
  | and left right => left.holds root current && right.holds root current
  | or left right => left.holds root current || right.holds root current
  | not inner => !inner.holds root current

end Condition

end JsonQuery
