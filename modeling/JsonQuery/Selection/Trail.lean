import JsonQuery.Selection.Location

/-!
The trail of an evaluation. Each visited value has a number and is recorded once, by the number of
its container and by what leads from there to it; the root has number 0. A location is put together
only where it is asked for.
-/

namespace JsonQuery

structure Link where
  container : Nat
  element : Element

structure Trail where
  /-- The link of the value with number `i + 1` stands at `i`. -/
  links : Array Link

namespace Trail

def empty : Trail := ⟨#[]⟩

def root : Nat := 0

def next (trail : Trail) : Nat := trail.links.size + 1

def push (trail : Trail) (container : Nat) (element : Element) : Trail :=
  ⟨trail.links.push ⟨container, element⟩⟩

def link? (trail : Trail) : Nat → Option Link
  | 0 => none
  | i + 1 => trail.links[i]?

/-- The way to a visited value, in front of `after`. Containers are visited before their children,
so the numbers fall on the way to the root. -/
def wayTo (trail : Trail) (number : Nat) (after : Location) : Location :=
  match trail.link? number with
  | none => after
  | some link =>
    if link.container < number then
      trail.wayTo link.container (link.element :: after)
    else
      link.element :: after
  termination_by number

def locate (trail : Trail) (number : Nat) : Location := trail.wayTo number []

end Trail

end JsonQuery
