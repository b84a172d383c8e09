import JsonQuery.Selection.Condition
import JsonQuery.Selection.Location
import JsonQuery.Selection.Search

/-!
The nodes that a path selects, by recursion on the path alone. A node is a value with its location.
No trail and no list of pending values takes part: a step maps each node to nodes below it, and the
descent recurses on the value. Evaluation is compared with this in `Proofs/Selection/Evaluation`.
-/

namespace JsonQuery

/-- A value of a document with its location. -/
abbrev Node := Location × Value

namespace Node

def child (n : Node) (c : Element × Value) : Node := (n.1 ++ [c.1], c.2)

def childrenWhere (test : Element × Value → Bool) (n : Node) : List Node :=
  (n.2.children.filter test).map n.child

def children (n : Node) : List Node := n.2.children.map n.child

end Node

/-- Whether a selector names the child that an element leads to, in a container of the given size.
A negative index counts from the end. -/
def Selector.names : Selector → Nat → Element → Bool
  | name k, _, .key k' => k' == k
  | index i, size, .index place => (place : Int) == i || (place : Int) == size + i
  | _, _, _ => false

/-- The node that a selector names. -/
def Selector.nodes (selector : Selector) (n : Node) : List Node :=
  n.childrenWhere fun c => selector.names n.2.size c.1

mutual

/-- The value at a location and all values below it, each before those below it. -/
def descent (location : Location) : Value → List Node
  | .array elements => (location, .array elements) :: elementDescent location 0 elements
  | .object members => (location, .object members) :: memberDescent location members
  | v => [(location, v)]

/-- The descents into the elements from a place on. -/
def elementDescent (location : Location) (place : Nat) : List Value → List Node
  | [] => []
  | v :: elements =>
    descent (location ++ [.index place]) v ++ elementDescent location (place + 1) elements

def memberDescent (location : Location) : List (String × Value) → List Node
  | [] => []
  | (k, v) :: members => descent (location ++ [.key k]) v ++ memberDescent location members

end

namespace Slice

/-- A bound as Python takes it: counted from the end where it is negative, and then moved to the
nearest place from `low` to `high`. -/
def adjusted (length low high bound : Int) : Int :=
  let place := if bound < 0 then bound + length else bound
  if place < low then low else if high < place then high else place

/-- How many strides begin within a distance. -/
def strides (distance stride : Int) : Nat := ((distance + stride - 1) / stride).toNat

/-- The places of a slice of a list, as Python counts them: the start, and from there one stride
after the other as long as the stop is not reached. -/
def range (slice : Slice) (length : Nat) : List Nat :=
  let size : Int := length
  let stride := slice.stride.getD 1
  if 0 < stride then
    let start := slice.start.elim 0 (adjusted size 0 size)
    let stop := slice.stop.elim size (adjusted size 0 size)
    (List.range (strides (stop - start) stride)).map fun n : Nat => (start + n * stride).toNat
  else if stride < 0 then
    let start := slice.start.elim (size - 1) (adjusted size (-1) (size - 1))
    let stop := slice.stop.elim (-1) (adjusted size (-1) (size - 1))
    (List.range (strides (start - stop) (-stride))).map fun n : Nat => (start + n * stride).toNat
  else
    []

/-- The elements that a slice selects. -/
def nodes (slice : Slice) (n : Node) : List Node :=
  (slice.range n.2.size).flatMap fun place => n.childrenWhere fun c => c.1 == .index place

end Slice

mutual

/-- The nodes that a path leads to from some nodes of the document `root`. -/
def select (root : Value) (nodes : List Node) : Path → List Node
  | [] => nodes
  | step :: path => select root (selectStep root nodes step) path

def selectStep (root : Value) (nodes : List Node) : Step → List Node
  | .root => [([], root)]
  | .select selector => nodes.flatMap selector.nodes
  | .wildcard => nodes.flatMap Node.children
  | .descent => nodes.flatMap fun n => descent n.1 n.2
  | .slice slice => nodes.flatMap slice.nodes
  | .filter condition =>
    nodes.flatMap (Node.childrenWhere fun c => condition.holds root c.2)
  | .union selectors => nodes.flatMap fun n => selectors.flatMap (·.nodes n)
  | .dynamic path =>
    let computed := (select root [] path).map (·.2)
    let selectors := computed.filterMap Selector.ofValue?
    nodes.flatMap fun n => selectors.flatMap (·.nodes n)

end

theorem select_append (root : Value) (nodes : List Node) (path more : Path) :
    select root nodes (path ++ more) = select root (select root nodes path) more := by
  induction path generalizing nodes with
  | nil => rfl
  | cons step path ih => simp only [List.cons_append, select, ih]

end JsonQuery
