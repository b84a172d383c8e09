import JsonQuery.Value.Basic

/-!
Equality of values. Arrays are equal in order. Objects are equal when they have the same keys with
equal values, in any order. Numbers are equal by value.
-/

namespace JsonQuery.Value

mutual

/-- Whether two values are equal. -/
def same : Value → Value → Bool
  | null, null => true
  | boolean a, boolean b => a == b
  | number x, number y => x.same y
  | string s, string t => s == t
  | array xs, array ys => sameElements xs ys
  | object ms, object ns => ms.length == ns.length && sameMembers ms ns
  | _, _ => false

def sameElements : List Value → List Value → Bool
  | [], [] => true
  | x :: xs, y :: ys => same x y && sameElements xs ys
  | _, _ => false

/-- Whether each member has an equal partner of its key among `others`. -/
def sameMembers : List (String × Value) → List (String × Value) → Bool
  | [], _ => true
  | (key, value) :: members, others =>
    (match Keyed.find? key others with
      | some other => same value other
      | none => false) && sameMembers members others

end

end JsonQuery.Value
