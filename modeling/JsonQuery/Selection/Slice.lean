import JsonQuery.Path.Basic

/-!
The places that a slice selects in a list of a given length. A negative bound counts from the end.
A positive stride goes up from the start and a negative one goes down, both as far as the stop,
which is left out; bounds outside of the list are moved to its nearest end.
-/

namespace JsonQuery

def placesUp (place stop stride : Int) : List Nat :=
  if place < stop ∧ 0 < stride then place.toNat :: placesUp (place + stride) stop stride else []
  termination_by (stop - place).toNat

def placesDown (place stop stride : Int) : List Nat :=
  if stop < place ∧ stride < 0 then place.toNat :: placesDown (place + stride) stop stride else []
  termination_by (place - stop).toNat

def clamp (low high n : Int) : Int := max low (min high n)

namespace Slice

/-- The places that a slice selects, in order. A stride of zero selects none. -/
def places (slice : Slice) (length : Nat) : List Nat :=
  let stride := slice.stride.getD 1
  if 0 < stride then
    let start := clamp 0 length ((slice.start.map (Value.fromStart length)).getD 0)
    let stop := clamp 0 length ((slice.stop.map (Value.fromStart length)).getD length)
    placesUp start stop stride
  else if stride < 0 then
    let start :=
      clamp (-1) (length - 1) ((slice.start.map (Value.fromStart length)).getD (length - 1))
    let stop := clamp (-1) (length - 1) ((slice.stop.map (Value.fromStart length)).getD (-1))
    placesDown start stop stride
  else
    []

end Slice

end JsonQuery
