import JsonQuery.Number.Text
import JsonQuery.Toml.Reading

/-!
How answers are written unless the command line says otherwise, and the TOML text of that. A text
need not give every setting, and may give more than settings.
-/

namespace JsonQuery

structure Settings where
  /-- Whether answers are indented. -/
  pretty : Bool := false
  /-- The number of spaces for each level of an indented answer. -/
  indentSize : Nat := 2
  /-- Whether a line end follows the answer. -/
  trailingNewline : Bool := true
  /-- Whether locations are answered in place of values. -/
  showPaths : Bool := false
  deriving DecidableEq

namespace Settings

def booleanText : Bool → String
  | true => "true"
  | false => "false"

def lineOf (key value : String) : String := key ++ " = " ++ value ++ "\n"

/-- The text of settings. There is none for an indentation that no TOML integer can hold. -/
def text? (settings : Settings) : Option String :=
  if settings.indentSize < Toml.integerBound then
    some (lineOf "pretty" (booleanText settings.pretty) ++
      lineOf "indent_size" (String.ofList (Text.ofNat settings.indentSize)) ++
      lineOf "trailing_newline" (booleanText settings.trailingNewline) ++
      lineOf "show_paths" (booleanText settings.showPaths))
  else none

def boolean? (key : String) (missing : Bool) (members : Toml.Members) : Option Bool :=
  match Keyed.find? key members with
  | none => some missing
  | some (.boolean b) => some b
  | some _ => none

def natural? (key : String) (missing : Nat) (members : Toml.Members) : Option Nat :=
  match Keyed.find? key members with
  | none => some missing
  | some (.integer n) => if 0 ≤ n then some n.toNat else none
  | some _ => none

/-- The settings among the members of a document. -/
def ofMembers? (members : Toml.Members) : Option Settings := do
  let missing : Settings := {}
  let pretty ← boolean? "pretty" missing.pretty members
  let indentSize ← natural? "indent_size" missing.indentSize members
  let trailingNewline ← boolean? "trailing_newline" missing.trailingNewline members
  let showPaths ← boolean? "show_paths" missing.showPaths members
  return ⟨pretty, indentSize, trailingNewline, showPaths⟩

def ofText? (text : List Char) : Option Settings := do ofMembers? (← Toml.parse? text)

end Settings

end JsonQuery
