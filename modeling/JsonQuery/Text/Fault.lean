/-!
Reading text from its front. A reader takes the text that is left and gives back what it read with
the text after it. A refusal keeps the text from the place where it arose, so the byte offset of
that place follows from the whole text alone.
-/

namespace JsonQuery.Text

/-- The number of bytes that a text takes in UTF-8. -/
def byteCount : List Char → Nat
  | [] => 0
  | c :: text => c.utf8Size + byteCount text

@[simp] theorem byteCount_nil : byteCount [] = 0 := rfl

@[simp] theorem byteCount_cons (c : Char) (text : List Char) :
    byteCount (c :: text) = c.utf8Size + byteCount text := rfl

@[simp] theorem byteCount_append (s t : List Char) :
    byteCount (s ++ t) = byteCount s + byteCount t := by
  induction s with
  | nil => simp
  | cons c s ih => simp only [List.cons_append, byteCount_cons, ih]; omega

/-- What stands before `rest`, the end of a text. -/
def before (text rest : List Char) : List Char := text.take (text.length - rest.length)

theorem before_append (s rest : List Char) : before (s ++ rest) rest = s := by
  simp [before]

/-- A refusal: its cause, and the text from the place of the fault to the end. -/
structure Fault (Cause : Type) where
  cause : Cause
  rest : List Char

/-- The byte offset of a fault in the text that was read. -/
def Fault.offset {Cause : Type} (fault : Fault Cause) (text : List Char) : Nat :=
  byteCount text - byteCount fault.rest

theorem Fault.offset_append {Cause : Type} (fault : Fault Cause) (before : List Char) :
    fault.offset (before ++ fault.rest) = byteCount before := by
  simp [Fault.offset]

/-- A reader gives a result and the text after it, or a fault. -/
abbrev Reader (Cause α : Type) := List Char → Except (Fault Cause) (α × List Char)

/-- A reader makes progress when all that it accepts takes at least one character. -/
def Progress {Cause α : Type} (read : Reader Cause α) : Prop :=
  ∀ text a rest, read text = .ok (a, rest) → rest.length < text.length

/-- What two steps of a reader accept, both of them have accepted. -/
theorem bind_eq_ok {ε α β : Type} {x : Except ε α} {f : α → Except ε β} {b : β} :
    (x >>= f) = .ok b ↔ ∃ a, x = .ok a ∧ f a = .ok b := by
  cases x with
  | error e =>
    constructor
    · intro h
      cases h
    · rintro ⟨a, ha, -⟩
      cases ha
  | ok a =>
    constructor
    · exact fun h => ⟨a, rfl, h⟩
    · rintro ⟨a', ha, h⟩
      cases ha
      exact h

end JsonQuery.Text
