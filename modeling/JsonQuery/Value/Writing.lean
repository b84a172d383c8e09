import JsonQuery.Value.Text

/-!
Writing the JSON text of values from a list of pending pieces, so that the depth of a value is
bounded by memory alone. A container is replaced by the pieces of its members; every other piece
is appended to the text written so far.
-/

namespace JsonQuery.Value

/-- A piece of text still to be written. -/
inductive Piece where
  | chars (cs : List Char)
  | lineBreak (depth : Nat)
  | key (name : String)
  | value (v : Value) (depth : Nat)

/-- The pieces of the elements after the first. -/
def morePieces (depth : Nat) : List Value → List Piece
  | [] => []
  | element :: elements =>
    .chars [','] :: .lineBreak depth :: .value element depth :: morePieces depth elements

def moreMemberPieces (depth : Nat) : List (String × Value) → List Piece
  | [] => []
  | (key, value) :: members =>
    .chars [','] :: .lineBreak depth :: .key key :: .value value depth ::
      moreMemberPieces depth members

/-- What stands between the opening bracket of a container at `depth` and the text after it. -/
def closing (depth : Nat) (bracket : Char) : List Piece := [.lineBreak depth, .chars [bracket]]

mutual

def weight : Value → Nat
  | array elements => elementsWeight elements + 3
  | object members => membersWeight members + 3
  | _ => 1

def elementsWeight : List Value → Nat
  | [] => 0
  | element :: elements => weight element + elementsWeight elements + 2

def membersWeight : List (String × Value) → Nat
  | [] => 0
  | (_, value) :: members => weight value + membersWeight members + 3

end

def Piece.weight : Piece → Nat
  | .value v _ => v.weight
  | _ => 1

def pendingWeight : List Piece → Nat
  | [] => 0
  | piece :: work => piece.weight + pendingWeight work

@[simp] theorem pendingWeight_cons (piece : Piece) (work : List Piece) :
    pendingWeight (piece :: work) = piece.weight + pendingWeight work := rfl

@[simp] theorem pendingWeight_append (work work' : List Piece) :
    pendingWeight (work ++ work') = pendingWeight work + pendingWeight work' := by
  induction work with
  | nil => simp [pendingWeight]
  | cons piece work ih => simp only [List.cons_append, pendingWeight_cons, ih]; omega

@[simp] theorem pendingWeight_nil : pendingWeight [] = 0 := rfl

theorem pendingWeight_morePieces (depth : Nat) (elements : List Value) :
    pendingWeight (morePieces depth elements) = elementsWeight elements := by
  induction elements with
  | nil => simp [morePieces, elementsWeight]
  | cons element elements ih => simp [morePieces, elementsWeight, Piece.weight, ih]; omega

theorem pendingWeight_moreMemberPieces (depth : Nat) (members : List (String × Value)) :
    pendingWeight (moreMemberPieces depth members) = membersWeight members := by
  induction members with
  | nil => simp [moreMemberPieces, membersWeight]
  | cons member members ih =>
    simp [moreMemberPieces, membersWeight, Piece.weight, ih]; omega

theorem weight_pos (v : Value) : 0 < v.weight := by
  cases v <;> simp [weight]

/-- Appends the text of the pending pieces to `out`. -/
def writePieces (layout : Layout) (out : String) : List Piece → String
  | [] => out
  | .chars cs :: work => writePieces layout (out ++ String.ofList cs) work
  | .lineBreak depth :: work =>
    writePieces layout (out ++ String.ofList (layout.lineBreak depth)) work
  | .key name :: work =>
    writePieces layout (out ++ String.ofList (Text.jsonString name ++ layout.colon)) work
  | .value (.array (element :: elements)) depth :: work =>
    writePieces layout (out.push '[')
      (.lineBreak (depth + 1) :: .value element (depth + 1) ::
        (morePieces (depth + 1) elements ++ (closing depth ']' ++ work)))
  | .value (.object ((key, value) :: members)) depth :: work =>
    writePieces layout (out.push '{')
      (.lineBreak (depth + 1) :: .key key :: .value value (depth + 1) ::
        (moreMemberPieces (depth + 1) members ++ (closing depth '}' ++ work)))
  | .value (.array []) _ :: work => writePieces layout (out ++ "[]") work
  | .value (.object []) _ :: work => writePieces layout (out ++ "\x7b\x7d") work
  | .value .null _ :: work => writePieces layout (out ++ "null") work
  | .value (.boolean b) _ :: work => writePieces layout (out ++ if b then "true" else "false") work
  | .value (.number x) _ :: work => writePieces layout (out ++ String.ofList x.text) work
  | .value (.string s) _ :: work =>
    writePieces layout (out ++ String.ofList (Text.jsonString s)) work
  termination_by work => pendingWeight work
  decreasing_by
    all_goals simp [Piece.weight, closing, weight, elementsWeight, membersWeight,
      pendingWeight_morePieces, pendingWeight_moreMemberPieces] <;> omega

def writeTo (layout : Layout) (out : String) (value : Value) : String :=
  writePieces layout out [.value value 0]

def writeArrayTo (layout : Layout) (out : String) : List Value → String
  | [] => out ++ "[]"
  | element :: elements =>
    writePieces layout (out.push '[')
      (.lineBreak 1 :: .value element 1 :: (morePieces 1 elements ++ closing 0 ']'))

/-- The JSON text of a value. -/
def write (layout : Layout) (value : Value) : String := writeTo layout "" value

def writeArray (layout : Layout) (elements : List Value) : String :=
  writeArrayTo layout "" elements

end JsonQuery.Value
