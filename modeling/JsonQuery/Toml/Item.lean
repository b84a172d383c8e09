import JsonQuery.Keyed
import JsonQuery.Number.Basic

/-!
What a TOML document holds, and how its tables grow. Each table remembers how it came about, since
that decides what may still be added: an inline table is closed, a table with a header takes
assignments under that header alone, and a table that only dotted keys made takes more dotted keys.
-/

namespace JsonQuery.Toml

/-- How a table came about: written inline, opened by a header, made by a dotted key, or implied by
the header of a table within it. -/
inductive Origin where
  | inline
  | header
  | dotted
  | implied
  deriving DecidableEq

inductive Item where
  | boolean (b : Bool)
  | integer (n : Int)
  | real (x : Number)
  | string (s : String)
  /-- A date, a time or both, as it was written. -/
  | moment (text : List Char)
  | array (elements : List Item)
  | table (origin : Origin) (members : List (String × Item))
  /-- The tables of a header in double brackets. -/
  | tables (elements : List (List (String × Item)))

/-- A dotted key: the keys before the last one, and the last one. -/
structure DottedKey where
  path : List String
  last : String

def DottedKey.ofKeys (first : String) (others : List String) : DottedKey :=
  ⟨(first :: others).dropLast, others.getLastD first⟩

def DottedKey.keys (key : DottedKey) : List String := key.path ++ [key.last]

/-- The members of a table, in the order in which they came. -/
abbrev Members := List (String × Item)

namespace Members

open Keyed (find? put)

/-- What leads along a path of keys: a header, or the front of a dotted key. -/
inductive Guide where
  | header
  | dotted
  deriving DecidableEq

/-- The origin of the tables that are made where they are missing. -/
def Guide.made : Guide → Origin
  | header => .implied
  | dotted => .dotted

/-- Whether a table of the origin may be entered. -/
def Guide.admits : Guide → Origin → Bool
  | _, .inline => false
  | header, _ => true
  | dotted, origin => origin != .header

/-- Changes the table at the end of a path. Tables are made where they are missing, and of the
tables of a double header the last one is entered. -/
def update (guide : Guide) (change : Origin → Members → Option Members) (origin : Origin) :
    List String → Members → Option Members
  | [], members => change origin members
  | key :: path, members =>
    match find? key members with
    | none => do
      let inner ← update guide change guide.made path []
      return put key (.table guide.made inner) members
    | some (.table origin inner) =>
      if guide.admits origin then do
        let inner ← update guide change origin path inner
        return put key (.table origin inner) members
      else none
    | some (.tables elements) =>
      match elements.getLast? with
      | none => none
      | some last => do
        let last ← update guide change .header path last
        return put key (.tables (elements.dropLast ++ [last])) members
    | some _ => none

def add? (key : String) (item : Item) (members : Members) : Option Members :=
  match find? key members with
  | none => some (put key item members)
  | some _ => none

/-- Assigns to a dotted key. The keys before the last one must end in a table that a dotted key
made. -/
def assign? (key : DottedKey) (item : Item) (members : Members) : Option Members :=
  update .dotted
    (fun origin members =>
      if key.path = [] ∨ origin = .dotted then add? key.last item members else none)
    .header key.path members

/-- Opens the table of a header. It must be new, or implied so far. -/
def openTable? (key : DottedKey) (members : Members) : Option Members :=
  update .header
    (fun _ members =>
      match find? key.last members with
      | none => some (put key.last (.table .header []) members)
      | some (.table .implied inner) => some (put key.last (.table .header inner) members)
      | some _ => none)
    .header key.path members

/-- Adds a table under a header in double brackets. -/
def appendTable? (key : DottedKey) (members : Members) : Option Members :=
  update .header
    (fun _ members =>
      match find? key.last members with
      | none => some (put key.last (.tables [[]]) members)
      | some (.tables elements) => some (put key.last (.tables (elements ++ [[]])) members)
      | some _ => none)
    .header key.path members

/-- Assigns to a dotted key in the table that a header opened. -/
def assignIn? (current : List String) (key : DottedKey) (item : Item) (members : Members) :
    Option Members :=
  update .header (fun _ members => assign? key item members) .header current members

end Members

end JsonQuery.Toml
