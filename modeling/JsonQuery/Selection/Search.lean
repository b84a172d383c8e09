import JsonQuery.Selection.Condition
import JsonQuery.Selection.Event
import JsonQuery.Selection.Slice
import JsonQuery.Selection.Trail

/-!
Evaluation of a path on a document. The matches of a step are found from those of the step before,
in order; each value that is visited is recorded on the trail. The descent keeps the values that
are still to be visited in a list, so that the depth of a document is bounded by memory alone.
-/

namespace JsonQuery

/-- A value that was found, with its number on the trail. -/
structure Match where
  value : Value
  number : Nat

def Selector.pick (selector : Selector) (v : Value) : List (Element × Value) :=
  match selector, v with
  | name k, v => ((v.member? k).map (.key k, ·)).toList
  | index i, .array elements =>
    ((Value.place? elements.length i).bind fun place =>
      elements[place]?.map (.index place, ·)).toList
  | index _, _ => []

def Slice.pick (slice : Slice) (v : Value) : List (Element × Value) :=
  match v with
  | .array elements =>
    let table := elements.toArray
    (slice.places elements.length).filterMap fun place => table[place]?.map (.index place, ·)
  | _ => []

/-- The selector that a value computed from the document stands for: a string names a member and
a whole number below `2 ^ 63` in magnitude an element. -/
def Selector.ofValue? : Value → Option Selector
  | .string s => some (.name s)
  | .number x => (x.toInt?.filter (·.natAbs < 0x8000000000000000)).map .index
  | _ => none

/-- The trail so far, and the values found, the last of which comes first. -/
structure Findings where
  trail : Trail
  hits : List Match

namespace Findings

def visit (container : Nat) : Findings → Element × Value → Findings
  | ⟨trail, hits⟩, (element, v) =>
    let number := trail.next
    ⟨trail.push container element, ⟨v, number⟩ :: hits⟩

def visitAll (findings : Findings) (container : Match) (children : List (Element × Value)) :
    Findings :=
  children.foldl (visit container.number) findings

theorem map_value_visitAll (findings : Findings) (container : Match)
    (children : List (Element × Value)) :
    (findings.visitAll container children).hits.map (·.value) =
      (children.map (·.2)).reverse ++ findings.hits.map (·.value) := by
  unfold visitAll
  induction children generalizing findings with
  | nil => simp
  | cons child children ih => simp [ih, visit]

/-- Visits all children of a match in order and finds those that pass a test. -/
def visitWhere (test : Value → Bool) (findings : Findings) (container : Match) : Findings :=
  let children := visitAll ⟨findings.trail, []⟩ container container.value.children
  ⟨children.trail, children.hits.filter (fun m => test m.value) ++ findings.hits⟩

end Findings

/-- How many values are below pending ones, themselves included. -/
def pendingCount (pending : List Match) : Nat := Value.elementCount (pending.map (·.value))

/-- Adds the pending values with all that is below them, each value before what is below it. The
children of a value are visited from the last to the first and are then pending in order. -/
def descend (findings : Findings) (pending : List Match) : Findings :=
  match findings, pending with
  | findings, [] => findings
  | ⟨trail, hits⟩, m :: pending =>
    let below := Findings.visitAll ⟨trail, []⟩ m m.value.children.reverse
    descend ⟨below.trail, m :: hits⟩ (below.hits ++ pending)
  termination_by pendingCount pending
  decreasing_by
    have h := Findings.map_value_visitAll ⟨trail, []⟩ m m.value.children.reverse
    have hc := m.value.elementCount_children
    simp only [List.map_nil, List.append_nil, List.map_reverse, List.reverse_reverse] at h
    simp only [pendingCount, List.map_append, List.map_cons, h, Value.elementCount_append,
      Value.elementCount]
    omega

/-- Where an evaluation stands after some steps: its trail, the matches in order, and what there is
to report, the last event first. -/
structure Stage where
  trail : Trail
  found : List Match
  events : List Event

namespace Stage

def start : Stage := ⟨Trail.empty, [], []⟩

def moveTo (stage : Stage) (step : Step) (findings : Findings) : Stage :=
  { trail := findings.trail
    found := findings.hits.reverse
    events := .stepped step stage.found.length findings.hits.length :: stage.events }

/-- What children lead to when `pick` picks them from each match. -/
def pick (stage : Stage) (pick : Value → List (Element × Value)) : Findings :=
  stage.found.foldl (fun findings m => findings.visitAll m (pick m.value)) ⟨stage.trail, []⟩

/-- What those children of the matches lead to that pass a test. -/
def pickWhere (stage : Stage) (test : Value → Bool) : Findings :=
  stage.found.foldl (Findings.visitWhere test) ⟨stage.trail, []⟩

def note (stage : Stage) (events : List Event) : Stage :=
  { stage with events := events ++ stage.events }

def finish (stage : Stage) (path : Path) : Stage :=
  stage.note [.finished path stage.found.length]

def values (stage : Stage) : List Value := stage.found.map (·.value)

def entries (stage : Stage) : List (Location × Value) :=
  stage.found.map fun m => (stage.trail.locate m.number, m.value)

/-- What there is to report, the first event first. -/
def report (stage : Stage) : List Event := stage.events.reverse

end Stage

mutual

def run (root : Value) (stage : Stage) : Path → Stage
  | [] => stage
  | step :: path => run root (advance root stage step) path

def advance (root : Value) (stage : Stage) : Step → Stage
  | .root => stage.moveTo .root ⟨stage.trail, [⟨root, Trail.root⟩]⟩
  | .select selector => stage.moveTo (.select selector) (stage.pick selector.pick)
  | .wildcard => stage.moveTo .wildcard (stage.pick Value.children)
  | .descent => stage.moveTo .descent (descend ⟨stage.trail, []⟩ stage.found)
  | .slice slice => stage.moveTo (.slice slice) (stage.pick slice.pick)
  | .filter condition =>
    stage.moveTo (.filter condition) (stage.pickWhere (condition.holds root))
  | .union selectors =>
    stage.moveTo (.union selectors) (stage.pick fun v => selectors.flatMap (·.pick v))
  | .dynamic path =>
    let computed := run root .start path
    let selectors := computed.values.filterMap Selector.ofValue?
    let stage := stage.note (computed.finish path).events
    stage.moveTo (.dynamic path) (stage.pick fun v => selectors.flatMap (·.pick v))

end

/-- The evaluation of a path on a document. -/
def evaluate (root : Value) (path : Path) : Stage := (run root .start path).finish path

end JsonQuery
