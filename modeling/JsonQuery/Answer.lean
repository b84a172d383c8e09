import JsonQuery.Json.Document
import JsonQuery.Path.Reading
import JsonQuery.Selection.Search
import JsonQuery.Value.Writing

/-!
The answer to a query on a document, both given as text. The query is read first, so its faults come
before those of the document. A query that can match one value at most answers with that value
alone; every other answer is an array, also that of no match.
-/

namespace JsonQuery

inductive Report where
  | values
  | locations

structure Style where
  layout : Layout
  report : Report

inductive Problem.Kind where
  | document
  | query
  | unsupported

/-- Why there is no answer, with the byte offset in the text at fault. -/
structure Problem where
  kind : Problem.Kind
  offset : Nat
  reason : String

namespace Problem

def Kind.phrase : Kind → String
  | document => "invalid JSON document"
  | query => "invalid JSONPath query"
  | unsupported => "unsupported expression"

def message (problem : Problem) : String :=
  problem.kind.phrase ++ " at byte " ++ toString problem.offset ++ ": " ++ problem.reason

def ofDocument (document : List Char) (fault : Json.Fault) : Problem :=
  ⟨.document, fault.offset document, fault.reason⟩

def ofQuery (query : List Char) (fault : Path.Fault) : Problem :=
  let kind :=
    match fault.cause with
    | .unsupported _ => .unsupported
    | _ => .query
  ⟨kind, fault.offset query, fault.reason⟩

end Problem

def writeValues (layout : Layout) (path : Path) (values : List Value) : String :=
  match values with
  | [v] => if path.singular then v.write layout else Value.writeArray layout [v]
  | values => Value.writeArray layout values

/-- The text of the locations of matches: an array of normalized paths. -/
def writeLocations (layout : Layout) (locations : List Location) : String :=
  Value.writeArray layout (locations.map fun location => .string (String.ofList location.text))

def writeReport (style : Style) (path : Path) (stage : Stage) : String :=
  match style.report with
  | .values => writeValues style.layout path stage.values
  | .locations => writeLocations style.layout (stage.entries.map (·.1))

/-- The answer to a query, and what there is to report about finding it. -/
def answer (style : Style) (query document : List Char) :
    List Event × Except Problem String :=
  match Path.parse query with
  | .error fault => ([], .error (.ofQuery query fault))
  | .ok path =>
    match Json.parse document with
    | .error fault => ([.compiled path], .error (.ofDocument document fault))
    | .ok root =>
      let stage := evaluate root path
      (.compiled path :: stage.report, .ok (writeReport style path stage))

end JsonQuery
