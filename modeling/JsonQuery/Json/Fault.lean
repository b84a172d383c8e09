import JsonQuery.Text.Fault

/-!
Why a text is not a JSON document.
-/

namespace JsonQuery.Json

/-- What a document may go on with at the place of a fault. -/
inductive Expected where
  | value
  | elementEnd
  | memberEnd
  | key
  | colon
  | word (w : String)
  | escape
  | closingQuote

def Expected.text : Expected → String
  | value => "JSON value"
  | elementEnd => "',' or ']'"
  | memberEnd => "',' or '\x7d'"
  | key => "object key"
  | colon => "':'"
  | word w => w
  | escape => "escape sequence"
  | closingQuote => "closing quote"

inductive Cause where
  /-- The document goes on with another character, or ends. -/
  | unexpected (expected : Expected)
  | number
  | escape
  | unicode
  | control
  | trailing

abbrev Fault := Text.Fault Cause

abbrev Reader (α : Type) := Text.Reader Cause α

/-- The refusal of what stands at the front of `rest`. -/
def unexpected {α : Type} (expected : Expected) (rest : List Char) : Except Fault α :=
  .error ⟨.unexpected expected, rest⟩

namespace Fault

/-- The words of a fault before and after its place. -/
def phrases (fault : Fault) : String × String :=
  match fault.cause with
  | .unexpected expected =>
    (match fault.rest with
      | found :: _ => "unexpected character '" ++ found.toString ++ "'"
      | [] => "unexpected end of input",
      ", expected " ++ expected.text)
  | .number => ("invalid number", "")
  | .escape => ("invalid escape sequence", "")
  | .unicode => ("invalid unicode escape", "")
  | .control => ("unescaped control character in string", "")
  | .trailing => ("trailing characters after JSON value", "")

def reason (fault : Fault) : String := fault.phrases.1 ++ fault.phrases.2

def message (fault : Fault) (document : List Char) : String :=
  fault.phrases.1 ++ " at byte " ++ toString (fault.offset document) ++ fault.phrases.2

end Fault

end JsonQuery.Json
