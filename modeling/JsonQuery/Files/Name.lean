/-!
Names of files: pieces between slashes. A piece that is empty or a single dot stays where it is, and
two dots go up; at the end of a name, idle pieces do not count for the parent and the extension.
-/

namespace JsonQuery.FileName

/-- The pieces of a name between its slashes. There is always one. -/
def split : List Char → List (List Char)
  | [] => [[]]
  | c :: name =>
    if c = '/' then [] :: split name
    else
      match split name with
      | [] => [[c]]
      | piece :: pieces => (c :: piece) :: pieces

def join : List (List Char) → List Char
  | [] => []
  | [piece] => piece
  | piece :: pieces => piece ++ '/' :: join pieces

/-- A piece that leads nowhere else. -/
def isIdle (piece : List Char) : Bool := piece == [] || piece == ['.']

/-- Pieces without the idle ones at their end. -/
def trim (pieces : List (List Char)) : List (List Char) :=
  (pieces.reverse.dropWhile isIdle).reverse

/-- The last piece of a name that counts. The first piece always does. -/
def lastPiece (name : List Char) : List Char :=
  match split name with
  | [] => []
  | first :: pieces => (trim pieces).getLastD first

/-- What follows the last dot of the last piece. A dot in front makes no extension. -/
def extension? (name : List Char) : Option (List Char) :=
  let piece := lastPiece name
  let ending := (piece.reverse.takeWhile (· ≠ '.')).reverse
  if piece = ['.', '.'] ∨ piece.length ≤ ending.length + 1 then none else some ending

/-- The name of the directory that a name is in: empty for the working directory. -/
def parent? (name : List Char) : Option (List Char) :=
  match split name with
  | [] => none
  | first :: pieces =>
    match trim pieces with
    | [] => if first = [] then none else some []
    | pieces =>
      match first, trim pieces.dropLast with
      | [], [] => some ['/']
      | first, pieces => some (join (first :: pieces))

end JsonQuery.FileName
