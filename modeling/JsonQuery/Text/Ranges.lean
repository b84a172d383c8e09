/-!
Sets of characters given by closed ranges of code points.
-/

namespace JsonQuery.Text

/-- Whether `n` lies in one of the closed ranges. -/
def inRanges (n : Nat) (ranges : List (Nat × Nat)) : Bool :=
  ranges.any fun range => range.1 ≤ n && n ≤ range.2

end JsonQuery.Text
