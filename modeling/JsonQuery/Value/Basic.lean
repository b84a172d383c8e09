import JsonQuery.Keyed
import JsonQuery.Number.Basic

/-!
JSON values. An object keeps its members in the order in which their keys first came; a key that
comes again takes the new value in its old place.
-/

namespace JsonQuery

inductive Value where
  | null
  | boolean (b : Bool)
  | number (x : Number)
  | string (s : String)
  | array (elements : List Value)
  | object (members : List (String × Value))

namespace Value

instance : Inhabited Value := ⟨null⟩

def ofMembers (members : List (String × Value)) : Value :=
  object (members.foldl (fun done member => Keyed.put member.1 member.2 done) [])

def member? (key : String) : Value → Option Value
  | object members => Keyed.find? key members
  | _ => none

/-- An index into a list of the given length, counted from the start. Negative indices count from
the end. -/
def fromStart (length : Nat) (index : Int) : Int := if index < 0 then length + index else index

/-- The place in a list of the given length that an index names. -/
def place? (length : Nat) (index : Int) : Option Nat :=
  let place := fromStart length index
  if 0 ≤ place ∧ place < length then some place.toNat else none

def element? (index : Int) : Value → Option Value
  | array elements => (place? elements.length index).bind (elements[·]?)
  | _ => none

def size : Value → Nat
  | array elements => elements.length
  | object members => members.length
  | _ => 0

def typeName : Value → String
  | null => "null"
  | boolean _ => "boolean"
  | number _ => "number"
  | string _ => "string"
  | array _ => "array"
  | object _ => "object"

mutual

/-- How many values a value holds, itself included. -/
def nodeCount : Value → Nat
  | array elements => 1 + elementCount elements
  | object members => 1 + memberCount members
  | _ => 1

def elementCount : List Value → Nat
  | [] => 0
  | element :: elements => element.nodeCount + elementCount elements

def memberCount : List (String × Value) → Nat
  | [] => 0
  | (_, value) :: members => value.nodeCount + memberCount members

end

theorem elementCount_append (elements more : List Value) :
    elementCount (elements ++ more) = elementCount elements + elementCount more := by
  induction elements with
  | nil => simp [elementCount]
  | cons element elements ih => simp only [List.cons_append, elementCount, ih]; omega

mutual

/-- No object within the value has a key twice. -/
def KeysDistinct : Value → Prop
  | array elements => ElementKeysDistinct elements
  | object members => (members.map (·.1)).Nodup ∧ MemberKeysDistinct members
  | _ => True

def ElementKeysDistinct : List Value → Prop
  | [] => True
  | element :: elements => element.KeysDistinct ∧ ElementKeysDistinct elements

def MemberKeysDistinct : List (String × Value) → Prop
  | [] => True
  | (_, value) :: members => value.KeysDistinct ∧ MemberKeysDistinct members

end

end Value

end JsonQuery
