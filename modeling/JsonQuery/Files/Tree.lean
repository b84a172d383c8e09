import JsonQuery.Files.Basic
import JsonQuery.Files.Name

/-!
Files held in memory: a tree below the working directory. Names that begin with a slash lead out of
it, and nothing is there.
-/

namespace JsonQuery

inductive Entry where
  | directory
  | file (content : List UInt8)

/-- The names of the pieces on the way from the working directory, the innermost first. -/
abbrev Place := List (List Char)

def FileTree := Place → Option Entry

namespace FileTree

/-- A working directory with nothing in it. -/
def empty : FileTree := fun place => if place = [] then some .directory else none

def put (tree : FileTree) (place : Place) (entry : Entry) : FileTree :=
  fun place' => if place' = place then some entry else tree place'

@[simp] theorem put_self (tree : FileTree) (place : Place) (entry : Entry) :
    tree.put place entry place = some entry := by
  simp [put]

theorem put_of_ne (tree : FileTree) {place place' : Place} (h : place' ≠ place) (entry : Entry) :
    tree.put place entry place' = tree place' := by
  simp [put, h]

def step (place : Place) (piece : List Char) : Place :=
  if FileName.isIdle piece then place
  else if piece = ['.', '.'] then place.tail
  else piece :: place

/-- The place that pieces lead to. All places but the last must be directories; at the last there
need be nothing. -/
def walk (tree : FileTree) : Place → List (List Char) → Option Place
  | place, [] => some place
  | place, piece :: pieces =>
    match tree place with
    | some .directory => walk tree (step place piece) pieces
    | _ => none

/-- The pieces of a name that does not lead out of the working directory. -/
def inside? (name : String) : Option (List (List Char)) :=
  match FileName.split name.toList with
  | [] :: _ => none
  | pieces => some pieces

def place? (tree : FileTree) (name : String) : Option Place :=
  (inside? name).bind (walk tree [])

def read (tree : FileTree) (name : String) : Except FileFault (List UInt8) :=
  match (tree.place? name).bind tree with
  | some (.file content) => .ok content
  | some .directory => .error .unread
  | none => .error .unopened

def isThere (tree : FileTree) (name : String) : Bool := ((tree.place? name).bind tree).isSome

/-- The last piece of a name can name a file. -/
def namesFile (name : String) : Bool :=
  match (FileName.split name.toList).getLast? with
  | some piece => !FileName.isIdle piece && piece != ['.', '.']
  | none => false

/-- The tree after writing to a file, where that can be done. -/
def write? (tree : FileTree) (name : String) (content : List UInt8) : Option FileTree :=
  match tree.place? name with
  | some place =>
    match tree place with
    | some .directory => none
    | _ => if namesFile name then some (tree.put place (.file content)) else none
  | none => none

/-- Makes the missing directories on the way along pieces, up to the first file. -/
def makeAlong (tree : FileTree) : Place → List (List Char) → Bool × FileTree
  | _, [] => (true, tree)
  | place, piece :: pieces =>
    let next := step place piece
    match tree next with
    | some .directory => makeAlong tree next pieces
    | some (.file _) => (false, tree)
    | none => makeAlong (tree.put next .directory) next pieces

def makeDirectories (tree : FileTree) (name : String) : Bool × FileTree :=
  if name = "" then (true, tree)
  else
    match inside? name with
    | some pieces => makeAlong tree [] pieces
    | none => (false, tree)

/-- The operations on files, on a tree that is the state. -/
def files : Files (StateM FileTree) where
  read name := do return (← get).read name
  isThere name := do return (← get).isThere name
  makeDirectories name := modifyGet fun tree => tree.makeDirectories name
  write name content := modifyGet fun tree =>
    match tree.write? name content with
    | some tree => (true, tree)
    | none => (false, tree)

end FileTree

end JsonQuery
