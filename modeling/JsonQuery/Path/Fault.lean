import JsonQuery.Path.Text
import JsonQuery.Text.Fault

/-!
Why a text is not a query.
-/

namespace JsonQuery.Path

/-- What a query may go on with at the place of a fault. -/
inductive Expected where
  | step
  | afterDot
  | afterDots
  | bracket
  | selector
  | closingQuote (quote : Char)
  | operand
  | memberName
  | nameOrIndex

def Expected.text : Expected → String
  | step => "'.' or '['"
  | afterDot => "a member name or '*' after '.'"
  | afterDots => "a member name, '*' or '[' after '..'"
  | bracket => "a bracket expression"
  | selector => "a quoted name or an index"
  | closingQuote quote => "closing quote " ++ quote.toString
  | operand => "'@', '$' or a literal"
  | memberName => "a member name after '.'"
  | nameOrIndex => "a name or an index"

inductive Malformed where
  /-- The query goes on with another character, or ends. -/
  | unexpected (expected : Expected)
  /-- Another character stands in the place of a given one, or the text ends there. -/
  | missing (wanted : Char)
  | bracketStart
  | emptyBrackets
  | tooDeep
  | brokenDescent
  | escape
  | unicode
  | noNumber
  | number (numeral : List Char)
  | exponent
  | noOperand (comparison : Comparison)
  | singleEquals
  | noComparison (word : List Char)
  | noLiteral (word : List Char)

/-- A form of condition that is known and not offered. -/
inductive Unsupported where
  | regularExpression
  | operator (word : List Char)
  | function (word : List Char)
  | bareLiteral
  | descent
  | wildcard
  | slice
  | union
  | segment

inductive Cause where
  | missingRoot
  | malformed (m : Malformed)
  | zeroStride
  | unsupported (u : Unsupported)

abbrev Fault := Text.Fault Cause

abbrev Reader (α : Type) := Text.Reader Cause α

def malformed {α : Type} (m : Malformed) (rest : List Char) : Except Fault α :=
  .error ⟨.malformed m, rest⟩

def unsupported {α : Type} (u : Unsupported) (rest : List Char) : Except Fault α :=
  .error ⟨.unsupported u, rest⟩

namespace Malformed

def text (m : Malformed) (rest : List Char) : String :=
  match m, rest with
  | unexpected expected, found :: _ =>
    "Unexpected character '" ++ found.toString ++ "', expected " ++ expected.text
  | unexpected expected, [] => "Unexpected end of query, expected " ++ expected.text
  | missing wanted, found :: _ =>
    "Unexpected token '" ++ found.toString ++ "', expected '" ++ wanted.toString ++ "'"
  | missing wanted, [] => "Unexpected end of query, expected '" ++ wanted.toString ++ "'"
  | bracketStart, rest =>
    "Invalid bracket expression starting with '" ++ String.ofList (rest.take 1) ++ "'"
  | emptyBrackets, _ => "Empty brackets"
  | tooDeep, _ => "Expression nested too deeply"
  | brokenDescent, _ => "Whitespace is not allowed inside '..'"
  | escape, _ => "Invalid escape sequence"
  | unicode, _ => "Invalid unicode escape"
  | noNumber, _ => "Expected number"
  | number numeral, _ => "Invalid number: " ++ String.ofList numeral
  | exponent, _ => "Invalid number exponent"
  | noOperand comparison, _ => "Expected a value after '" ++ comparison.mark ++ "'"
  | singleEquals, _ => "Unexpected '=', did you mean '=='?"
  | noComparison word, _ =>
    "Unexpected '" ++ String.ofList word ++ "', expected a comparison operator"
  | noLiteral word, _ =>
    "Unexpected '" ++ String.ofList word ++ "', expected '@', '$' or a literal"

end Malformed

def Unsupported.text : Unsupported → String
  | regularExpression => "regular expression match '=~' is not supported"
  | operator word => "operator '" ++ String.ofList word ++ "' is not supported"
  | function word => "function '" ++ String.ofList word ++ "()' is not supported"
  | bareLiteral => "a literal cannot be used as a condition on its own"
  | descent => "recursive descent is not supported inside filters"
  | wildcard => "wildcards are not supported inside filters"
  | slice => "slices are not supported inside filters"
  | union => "unions are not supported inside filters"
  | segment => "only names and indices are supported inside filter paths"

namespace Fault

def reason (fault : Fault) : String :=
  match fault.cause with
  | .missingRoot => "JSONPath must start with '$'"
  | .malformed m => m.text fault.rest
  | .zeroStride => "slice step cannot be zero"
  | .unsupported u => u.text

def message (fault : Fault) (query : List Char) : String :=
  let place := toString (fault.offset query)
  match fault.cause with
  | .missingRoot => "JSONPath must start with '$' (position " ++ place ++ ")"
  | .malformed m => "Invalid JSONPath syntax at position " ++ place ++ ": " ++ m.text fault.rest
  | .zeroStride => "Invalid slice at position " ++ place ++ ": step cannot be zero"
  | .unsupported u => "Unsupported filter expression at position " ++ place ++ ": " ++ u.text

end Fault

end JsonQuery.Path
