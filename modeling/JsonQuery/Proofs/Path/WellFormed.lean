import JsonQuery.Path.Lexeme
import JsonQuery.Path.Text
import JsonQuery.Proofs.Number.Written

/-!
The paths that a query can ask for, how deeply their canonical text nests, and the path that this
text denotes: the same path, with every zero without a sign.
-/

namespace JsonQuery

/-- An index fits into 64 bits. -/
def Selector.InRange : Selector → Prop
  | name _ => True
  | index i => Path.InIndexRange i

/-- The parts that are given fit into 64 bits, and the stride is not zero. -/
structure Slice.WellFormed (slice : Slice) : Prop where
  start : ∀ n ∈ slice.start, Path.InIndexRange n
  stop : ∀ n ∈ slice.stop, Path.InIndexRange n
  stride : ∀ n ∈ slice.stride, Path.InIndexRange n
  stride_ne_zero : slice.stride ≠ some 0

/-- The values that a condition can name: no array, no object and no infinite number. -/
def Value.IsLiteral : Value → Prop
  | null => True
  | boolean _ => True
  | number x => x.IsFinite
  | string _ => True
  | array _ => False
  | object _ => False

def Reference.WellFormed (r : Reference) : Prop := ∀ s ∈ r.selectors, s.InRange

def Operand.WellFormed : Operand → Prop
  | reference r => r.WellFormed
  | literal v => v.IsLiteral

namespace Condition

def WellFormed : Condition → Prop
  | present r => r.WellFormed
  | compare left _ right => left.WellFormed ∧ right.WellFormed
  | and left right => left.WellFormed ∧ right.WellFormed
  | or left right => left.WellFormed ∧ right.WellFormed
  | not inner => inner.WellFormed

/-- How deeply the canonical text nests. The parentheses behind a negation count by themselves. -/
def nesting : Condition → Nat
  | present _ => 0
  | compare .. => 0
  | and left right => 1 + max left.nesting right.nesting
  | or left right => 1 + max left.nesting right.nesting
  | not inner => 2 + inner.nesting

end Condition

/-- A step that picks among the children of a node. -/
def Step.Picks : Step → Prop
  | root => False
  | descent => False
  | _ => True

namespace Path

/-- Steps that may follow the root: none is the root, and a picking step follows each descent. -/
def Arranged : Path → Prop
  | [] => True
  | step :: path =>
    step ≠ .root ∧ (step = .descent → ∃ next ∈ path.head?, next.Picks) ∧ Arranged path

mutual

/-- The root comes first and only there. -/
def WellFormed : Path → Prop
  | .root :: path => Arranged path ∧ StepsWellFormed path
  | _ => False

def StepsWellFormed : Path → Prop
  | [] => True
  | step :: path => StepWellFormed step ∧ StepsWellFormed path

def StepWellFormed : Step → Prop
  | .select selector => selector.InRange
  | .slice slice => slice.WellFormed
  | .filter condition => condition.WellFormed
  | .union selectors => 2 ≤ selectors.length ∧ ∀ s ∈ selectors, s.InRange
  | .dynamic path => WellFormed path
  | _ => True

end

mutual

/-- How deeply the canonical text nests. -/
def nesting : Path → Nat
  | [] => 0
  | step :: path => max (stepNesting step) (nesting path)

def stepNesting : Step → Nat
  | .filter condition => 1 + condition.nesting
  | .dynamic path => 1 + nesting path
  | _ => 0

end

end Path

theorem Path.nesting_root (path : Path) : Path.nesting (.root :: path) = Path.nesting path := by
  simp only [Path.nesting, Path.stepNesting, Nat.zero_max]

theorem Path.nesting_descent (path : Path) :
    Path.nesting (.descent :: path) = Path.nesting path := by
  simp only [Path.nesting, Path.stepNesting, Nat.zero_max]

def Operand.asWritten : Operand → Operand
  | literal (.number x) => literal (.number x.asWritten)
  | operand => operand

def Condition.asWritten : Condition → Condition
  | present r => present r
  | compare left comparison right => compare left.asWritten comparison right.asWritten
  | and left right => and left.asWritten right.asWritten
  | or left right => or left.asWritten right.asWritten
  | not inner => not inner.asWritten

namespace Path

mutual

def asWritten : Path → Path
  | [] => []
  | step :: path => stepAsWritten step :: asWritten path

def stepAsWritten : Step → Step
  | .filter condition => .filter condition.asWritten
  | .dynamic path => .dynamic (asWritten path)
  | step => step

end

end Path

theorem Operand.same_asWritten {o : Operand} (h : o.WellFormed) : o.same o.asWritten = true := by
  cases o with
  | reference r => exact beq_self_eq_true r
  | literal v =>
    cases v with
    | null => rfl
    | boolean b => exact beq_self_eq_true b
    | number x => exact Number.same_asWritten h
    | string s => exact beq_self_eq_true s
    | array elements => exact False.elim h
    | object members => exact False.elim h

theorem Condition.same_asWritten {c : Condition} (h : c.WellFormed) :
    c.same c.asWritten = true := by
  induction c with
  | present r => exact beq_self_eq_true r
  | compare left comparison right =>
    simp only [asWritten, same, Operand.same_asWritten h.1, Operand.same_asWritten h.2,
      beq_self_eq_true, Bool.and_true]
  | and left right ihl ihr => simp only [asWritten, same, ihl h.1, ihr h.2, Bool.and_true]
  | or left right ihl ihr => simp only [asWritten, same, ihl h.1, ihr h.2, Bool.and_true]
  | not inner ih => exact ih h

namespace Path

mutual

theorem same_asWritten_of_steps : (path : Path) → StepsWellFormed path →
    same path (asWritten path) = true
  | [], _ => rfl
  | step :: path, h => by
    simp only [asWritten, same, sameStep_asWritten step h.1, same_asWritten_of_steps path h.2,
      Bool.and_true]

theorem sameStep_asWritten : (step : Step) → StepWellFormed step →
    sameStep step (stepAsWritten step) = true
  | .root, _ => rfl
  | .select selector, _ => beq_self_eq_true selector
  | .wildcard, _ => rfl
  | .descent, _ => rfl
  | .slice slice, _ => beq_self_eq_true slice
  | .filter _, h => Condition.same_asWritten h
  | .union selectors, _ => beq_self_eq_true selectors
  | .dynamic (.root :: path), h => same_asWritten_of_steps path h.2

end

/-- What the text of a path denotes is that path. -/
theorem same_asWritten {path : Path} (h : WellFormed path) :
    same path (asWritten path) = true := by
  cases path with
  | nil => exact False.elim h
  | cons step path =>
    cases step with
    | root => exact same_asWritten_of_steps path h.2
    | _ => exact False.elim h

end Path

end JsonQuery
