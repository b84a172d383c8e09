import JsonQuery.Path.Text

/-!
What is reported while a query is compiled and evaluated.
-/

namespace JsonQuery

inductive Level where
  | warn
  | debug
  | trace

inductive Event where
  | compiled (path : Path)
  /-- A step led from so many matches to so many. -/
  | stepped (step : Step) (before after : Nat)
  | finished (path : Path) (count : Nat)

namespace Event

def level : Event → Level
  | compiled _ => .debug
  | stepped .. => .trace
  | finished .. => .debug

def text : Event → String
  | compiled path =>
    "compiled query " ++ String.ofList path.text ++ " (" ++ toString path.length ++
      " steps, singular: " ++ (if path.singular then "true" else "false") ++ ")"
  | stepped step before after =>
    "step " ++ String.ofList (Path.stepText step) ++ ": " ++ toString before ++ " -> " ++
      toString after ++ " matches"
  | finished path count =>
    "query " ++ String.ofList path.text ++ " matched " ++ toString count ++ " values"

end Event

end JsonQuery
