import JsonQuery.Text.Blank
import JsonQuery.Text.Fault

/-!
Readers that are put together, and blanks that are skipped.
-/

namespace JsonQuery.Text

/-- What two steps of a reader refuse, the first refuses, or the second behind the first. -/
theorem bind_eq_error {ε α β : Type} {x : Except ε α} {f : α → Except ε β} {e : ε} :
    (x >>= f) = .error e ↔ x = .error e ∨ ∃ a, x = .ok a ∧ f a = .error e := by
  cases x with
  | error e' =>
    constructor
    · intro h
      cases h
      exact .inl rfl
    · rintro (h | ⟨a, ha, -⟩)
      · cases h
        rfl
      · cases ha
  | ok a =>
    constructor
    · exact fun h => .inr ⟨a, rfl, h⟩
    · rintro (h | ⟨a', ha, h⟩)
      · cases h
      · cases ha
        exact h

/-- The characters of a class are taken up to the first other one. -/
theorem takeWhile_append_of_head {p : Char → Bool} {s rest : List Char}
    (hs : ∀ c ∈ s, p c = true) (hr : ∀ c ∈ rest.head?, p c = false) :
    (s ++ rest).takeWhile p = s ∧ (s ++ rest).dropWhile p = rest := by
  rw [List.takeWhile_append_of_pos hs, List.dropWhile_append_of_pos hs]
  cases rest with
  | nil => simp
  | cons c rest => simp [hr c rfl]

theorem skipBlank_cons {c : Char} (h : isBlank c = false) (rest : List Char) :
    skipBlank (c :: rest) = c :: rest := by
  simp only [skipBlank, List.dropWhile_cons, h, Bool.false_eq_true, if_false]

theorem skipBlank_skipBlank (text : List Char) : skipBlank (skipBlank text) = skipBlank text := by
  induction text with
  | nil => rfl
  | cons c text ih =>
    cases h : isBlank c with
    | true => simpa only [skipBlank, List.dropWhile_cons, h, if_true] using ih
    | false => rw [skipBlank_cons h, skipBlank_cons h]

theorem isBlank_of_isDigit {c : Char} (h : c.isDigit = true) : isBlank c = false := by
  simp only [Char.isDigit, Bool.and_eq_true, decide_eq_true_eq, ge_iff_le, UInt32.le_iff_toNat_le]
    at h
  have hlow : 48 ≤ c.toNat := h.1
  have hhigh : c.toNat ≤ 57 := h.2
  simp only [isBlank, Bool.or_eq_false_iff, Bool.and_eq_false_iff, decide_eq_false_iff_not,
    beq_eq_false_iff_ne]
  omega

end JsonQuery.Text
