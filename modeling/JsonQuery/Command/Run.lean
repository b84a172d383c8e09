import JsonQuery.Answer
import JsonQuery.Command.Arguments
import JsonQuery.Settings.Storage
import JsonQuery.Source

/-!
A run of the program: the settings are read first, then the document, then the query. The command
line wins over the settings.
-/

namespace JsonQuery.Command

structure Surroundings (m : Type → Type) where
  files : Files m
  /-- The home directory, if it is known. -/
  home : Option String
  /-- The bytes of standard input, unless they cannot be read. -/
  input : m (Option (List UInt8))

structure Notice where
  level : Level
  text : String

inductive Outcome where
  | output (text : String)
  | failure (message : String)
  | usage

def Outcome.exitCode : Outcome → Nat
  | output _ => 0
  | failure _ => 1
  | usage => 2

/-- The outcome of a run with what was told on the way. -/
structure Record where
  notices : List Notice
  outcome : Outcome

def usageLine : String := "Usage: pathquill [OPTIONS] <QUERY> [FILE]\n"

def versionText : String := "pathquill 0.1.0\n"

def helpText : String :=
  "Evaluate a JSONPath query against a JSON document\n\n" ++ usageLine ++ "\n" ++
  "Arguments:\n" ++
  "  <QUERY>  JSONPath query, e.g. '$.store.book[*].author'\n" ++
  "  [FILE]   JSON file to query (omit or use '-' to read from stdin; " ++
    ".gz files are decompressed)\n\n" ++
  "Options:\n" ++
  "  -p, --pretty         Indent the output\n" ++
  "      --indent <N>     Spaces per indentation level when pretty printing\n" ++
  "      --paths          Print the normalized path of each match instead of its value\n" ++
  "      --config <PATH>  Read configuration from this file instead of " ++
    "~/.config/pathquill/config.toml\n" ++
  "  -v, --verbose...     Increase log verbosity (-v debug, -vv trace)\n" ++
  "  -h, --help           Print help\n" ++
  "  -V, --version        Print version\n"

/-- The levels that are shown when the verbosity is asked for so many times. -/
def shows (verbosity : Nat) : Level → Bool
  | .warn => true
  | .debug => 1 ≤ verbosity
  | .trace => 2 ≤ verbosity

namespace Arguments

/-- An indentation on the command line asks for an indented answer. -/
def style (arguments : Arguments) (settings : Settings) : Style where
  layout :=
    if arguments.pretty ∨ arguments.indent.isSome ∨ settings.pretty then
      .indented (arguments.indent.getD settings.indentSize)
    else .compact
  report := if arguments.paths ∨ settings.showPaths then .locations else .values

/-- A dash stands for standard input. -/
def source (arguments : Arguments) : Source :=
  match arguments.file with
  | some name => if name = "-" then .input else .file name
  | none => .input

end Arguments

def ending (settings : Settings) : String := if settings.trailingNewline then "\n" else ""

variable {m : Type → Type} [Monad m]

/-- The settings of a run, and what is told about them. -/
def settings (around : Surroundings m) (arguments : Arguments) :
    m (Except Settings.Fault (Settings × List Notice)) := do
  match arguments.config with
  | some name => return (← Settings.loadFrom around.files name).map (·, [])
  | none =>
    let (settings, fault) ← Settings.load around.files around.home
    return .ok (settings, match fault with
      | some fault => [⟨.warn, fault.message ++ "; using default configuration"⟩]
      | none => [])

def finish (arguments : Arguments) (settings : Settings) (query document : String) :
    List Notice × Outcome :=
  let (events, result) := answer (arguments.style settings) query.toList document.toList
  (events.map fun event => ⟨event.level, event.text⟩,
    match result with
    | .ok text => .output (text ++ ending settings)
    | .error problem => .failure problem.message)

def runWith (around : Surroundings m) (arguments : Arguments) (query : String) : m Record := do
  match ← settings around arguments with
  | .error fault => return ⟨[], .failure fault.message⟩
  | .ok (settings, notices) =>
    match ← Source.load around.files around.input arguments.source with
    | .error fault => return ⟨notices, .failure fault.message⟩
    | .ok document =>
      let (more, outcome) := finish arguments settings query document
      return ⟨(notices ++ more).filter (shows arguments.verbosity ·.level), outcome⟩

/-- A run of the program on a command line. -/
def run (around : Surroundings m) (line : List String) : m Record := do
  match Arguments.ofLine line with
  | .error .usage => return ⟨[], .usage⟩
  | .error .help => return ⟨[], .output helpText⟩
  | .error .version => return ⟨[], .output versionText⟩
  | .ok (arguments, query) => runWith around arguments query

end JsonQuery.Command
