import JsonQuery.Number.Nearest
import JsonQuery.Value.Basic

/-!
Exchange with programs that tell integers from reals and keep the members of an object sorted by
their keys. Whole numbers below `10 ^ 15` in magnitude are passed on as integers, other finite
numbers as reals, and what is not finite as null.
-/

namespace JsonQuery

/-- Puts a member in front of the first one with a greater key, in place of one with the same
key. -/
def putSorted {α : Type} (key : String) (a : α) : List (String × α) → List (String × α)
  | [] => [(key, a)]
  | (k, b) :: members =>
    if key < k then (key, a) :: (k, b) :: members
    else if key = k then (key, a) :: members
    else (k, b) :: putSorted key a members

def sortMembers {α : Type} (members : List (String × α)) : List (String × α) :=
  members.foldl (fun sorted member => putSorted member.1 member.2 sorted) []

inductive Exchanged where
  | null
  | boolean (b : Bool)
  | integer (n : Int)
  | real (x : Number)
  | string (s : String)
  | array (elements : List Exchanged)
  | object (members : List (String × Exchanged))

/-- Whole numbers below this bound are exchanged as integers. -/
def Exchanged.integerBound : Nat := tenTo 15

def Exchanged.ofNumber (x : Number) : Exchanged :=
  match x.toInt?.filter (·.natAbs < integerBound) with
  | some n => .integer n
  | none => if x.IsFinite then .real x else .null

mutual

def Value.exchange : Value → Exchanged
  | .null => .null
  | .boolean b => .boolean b
  | .number x => .ofNumber x
  | .string s => .string s
  | .array elements => .array (exchangeElements elements)
  | .object members => .object (sortMembers (exchangeMembers members))

def Value.exchangeElements : List Value → List Exchanged
  | [] => []
  | element :: elements => element.exchange :: exchangeElements elements

def Value.exchangeMembers : List (String × Value) → List (String × Exchanged)
  | [] => []
  | (key, value) :: members => (key, value.exchange) :: exchangeMembers members

end

mutual

def Exchanged.value : Exchanged → Value
  | .null => .null
  | .boolean b => .boolean b
  | .integer n => .number (.ofInt n)
  | .real x => .number x
  | .string s => .string s
  | .array elements => .array (elementValues elements)
  | .object members => .ofMembers (memberValues members)

def Exchanged.elementValues : List Exchanged → List Value
  | [] => []
  | element :: elements => element.value :: elementValues elements

def Exchanged.memberValues : List (String × Exchanged) → List (String × Value)
  | [] => []
  | (key, value) :: members => (key, value.value) :: memberValues members

end

end JsonQuery
