import JsonQuery.Number.Numeral

/-!
The command line: a query, a file if any, and options in any order before, between and after them.
Two dashes alone end the options. An option stands once, except for the one that counts. Options
that ask for a text of their own end the reading, so that what follows them is not looked at.
-/

namespace JsonQuery.Command

/-- Why a command line gives no arguments: it is not usable, or it asks for a text. -/
inductive Stop where
  | usage
  | help
  | version

/-- What a command line gives. The query must be there in the end. -/
structure Arguments where
  query : Option String := none
  file : Option String := none
  pretty : Bool := false
  indent : Option Nat := none
  paths : Bool := false
  config : Option String := none
  verbosity : Nat := 0

inductive Toggle where
  | pretty
  | paths
  | verbose
  | help
  | version

inductive Parameter where
  | indent
  | config

def Toggle.ofLetter? : Char → Option Toggle
  | 'p' => some pretty
  | 'v' => some verbose
  | 'h' => some help
  | 'V' => some version
  | _ => none

def Toggle.ofName? (name : String) : Option Toggle :=
  if name = "pretty" then some pretty
  else if name = "paths" then some paths
  else if name = "verbose" then some verbose
  else if name = "help" then some help
  else if name = "version" then some version
  else none

def Parameter.ofName? (name : String) : Option Parameter :=
  if name = "indent" then some indent
  else if name = "config" then some config
  else none

/-- The bound of the numbers that an option takes. -/
def countBound : Nat := 0x10000000000000000

/-- A number as an option takes it: digits, behind a plus sign if any. -/
def count? (text : List Char) : Option Nat :=
  let digits := match text with
    | '+' :: digits => digits
    | digits => digits
  if digits ≠ [] ∧ digits.all Char.isDigit ∧ Text.natOfDigits digits < countBound then
    some (Text.natOfDigits digits)
  else none

namespace Arguments

def toggle (arguments : Arguments) : Toggle → Except Stop Arguments
  | .pretty => if arguments.pretty then .error .usage else .ok { arguments with pretty := true }
  | .paths => if arguments.paths then .error .usage else .ok { arguments with paths := true }
  | .verbose => .ok { arguments with verbosity := arguments.verbosity + 1 }
  | .help => .error .help
  | .version => .error .version

def set (arguments : Arguments) (parameter : Parameter) (value : String) : Except Stop Arguments :=
  match parameter, count? value.toList with
  | .indent, some n =>
    if arguments.indent.isSome then .error .usage else .ok { arguments with indent := some n }
  | .indent, none => .error .usage
  | .config, _ =>
    if arguments.config.isSome ∨ value = "" then .error .usage
    else .ok { arguments with config := some value }

/-- Takes an argument that is no option: the query first, then the name of the file. -/
def place (arguments : Arguments) (value : String) : Except Stop Arguments :=
  match arguments.query, arguments.file with
  | none, _ => .ok { arguments with query := some value }
  | some _, none =>
    if value = "" then .error .usage else .ok { arguments with file := some value }
  | some _, some _ => .error .usage

/-- Toggles by their letters, one behind the other. -/
def toggles (arguments : Arguments) : List Char → Except Stop Arguments
  | [] => .ok arguments
  | letter :: letters =>
    match Toggle.ofLetter? letter with
    | none => .error .usage
    | some toggle => do (← arguments.toggle toggle).toggles letters

/-- An option by its name, with a value behind a sign of equality if any. A parameter without one
takes the next argument. -/
def named (arguments : Arguments) (word : List Char) :
    Except Stop (Arguments × Option Parameter) :=
  let name := word.takeWhile (· ≠ '=')
  let value := match word.drop name.length with
    | [] => none
    | _ :: value => some (String.ofList value)
  let name := String.ofList name
  match Toggle.ofName? name, Parameter.ofName? name, value with
  | some toggle, _, none => do return (← arguments.toggle toggle, none)
  | none, some parameter, none => .ok (arguments, some parameter)
  | none, some parameter, some value => do return (← arguments.set parameter value, none)
  | _, _, _ => .error .usage

def isOption (argument : String) : Bool :=
  match argument.toList with
  | '-' :: _ :: _ => true
  | _ => false

/-- Reads a command line on, for the value of a parameter if one has been named. -/
def read (arguments : Arguments) : Option Parameter → List String → Except Stop Arguments
  | none, [] => .ok arguments
  | some _, [] => .error .usage
  | some parameter, value :: line =>
    if isOption value then .error .usage else do (← arguments.set parameter value).read none line
  | none, argument :: line =>
    match argument.toList with
    | ['-', '-'] => line.foldlM place arguments
    | '-' :: '-' :: word => do
      let (arguments, parameter) ← arguments.named word
      arguments.read parameter line
    | '-' :: letter :: letters => do (← arguments.toggles (letter :: letters)).read none line
    | _ => do (← arguments.place argument).read none line

/-- The arguments of a command line, and the query among them. -/
def ofLine (line : List String) : Except Stop (Arguments × String) := do
  let arguments ← read {} none line
  match arguments.query with
  | some query => return (arguments, query)
  | none => .error .usage

end Arguments

end JsonQuery.Command
