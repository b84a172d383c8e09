import JsonQuery.Path.Text

/-!
Locations of values in a document: the keys and indices that lead from the root to a value.
-/

namespace JsonQuery

/-- What leads from a container to one of its children. -/
inductive Element where
  | key (k : String)
  | index (i : Nat)
  deriving DecidableEq

abbrev Location := List Element

def Element.selector : Element → Selector
  | key k => .name k
  | index i => .index i

def Location.text (location : Location) : List Char :=
  '$' :: location.flatMap fun element => element.selector.segment

/-- The children of a value in order, each with what leads to it. -/
def Value.children : Value → List (Element × Value)
  | array elements => elements.zipIdx.map fun (v, i) => (.index i, v)
  | object members => members.map fun (k, v) => (.key k, v)
  | _ => []

theorem Value.elementCount_children (v : Value) :
    1 + elementCount (v.children.map (·.2)) = v.nodeCount := by
  cases v with
  | array elements =>
    have h : ∀ (es : List Value) (i : Nat), (es.zipIdx i).map (·.1) = es := by
      intro es
      induction es with
      | nil => simp
      | cons e es ih => intro i; simp [ih]
    simp [children, nodeCount, List.map_map, Function.comp_def, h elements 0]
  | object members =>
    have h : ∀ ms : List (String × Value), elementCount (ms.map (·.2)) = memberCount ms := by
      intro ms
      induction ms with
      | nil => simp [memberCount, elementCount]
      | cons m ms ih => simp [memberCount, elementCount, ih]
    simpa [children, nodeCount, List.map_map, Function.comp_def] using h members
  | _ => simp [children, nodeCount, elementCount]

end JsonQuery
