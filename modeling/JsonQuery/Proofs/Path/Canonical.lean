import JsonQuery.Proofs.Path.Lexeme
import JsonQuery.Proofs.Path.WellFormed

/-!
The canonical text of a well formed path derives this path, as deep as the text nests. No blanks
stand in it but those around the operators of conditions.
-/

namespace JsonQuery.Path

open Text (isBlank signed natOfDigits)

theorem signed_natAbs (n : Int) : signed (n < 0) n.natAbs = n := by
  by_cases h : n < 0
  · rw [signed, if_pos (decide_eq_true h)]
    omega
  · rw [signed, if_neg (by simpa using h)]
    omega

theorem integerText_ofInt {n : Int} (h : InIndexRange n) : IntegerText (Text.ofInt n) n := by
  have hvalue : signed (n < 0) (natOfDigits (Text.ofNat n.natAbs)) = n := by
    rw [Text.natOfDigits_ofNat, signed_natAbs]
  have hs := IntegerText.mk (n < 0) (Text.isDigits_ofNat n.natAbs) (by rwa [hvalue])
  rwa [hvalue, ← Numeral.ofInt_eq] at hs

theorem selectorText_text {selector : Selector} (h : selector.InRange) :
    SelectorText selector.text selector := by
  cases selector with
  | name name => exact .name (quotedText_quotedName name)
  | index i => exact .index (integerText_ofInt h)

theorem moreSelectors_text {selectors : List Selector} (h : ∀ s ∈ selectors, s.InRange) :
    MoreSelectors (selectors.flatMap fun s => ',' :: s.text) selectors := by
  induction selectors with
  | nil => exact .nil
  | cons selector selectors ih =>
    obtain ⟨hs, hmore⟩ := List.forall_mem_cons.mp h
    exact .cons blanks_nil blanks_nil (selectorText_text hs) (ih hmore)

theorem intercalate_text (first : Selector) (selectors : List Selector) :
    [','].intercalate ((first :: selectors).map Selector.text) =
      first.text ++ selectors.flatMap fun s => ',' :: s.text := by
  induction selectors generalizing first with
  | nil => simp [List.intercalate]
  | cons selector selectors ih =>
    have h := ih selector
    simp only [List.map_cons, List.intercalate, List.intersperse_cons_cons, List.flatten_cons,
      List.flatMap_cons] at h ⊢
    rw [h]
    simp

theorem boundText_bound {bound : Option Int} (h : ∀ n ∈ bound, InIndexRange n) :
    BoundText (Slice.bound bound) bound := by
  cases bound with
  | none => exact .none
  | some n => exact .some (integerText_ofInt (h n rfl))

theorem sliceText_text {slice : Slice} (h : slice.WellFormed) : SliceText slice.text slice := by
  obtain ⟨start, stop, stride⟩ := slice
  have hstart := boundText_bound h.start
  have hstop := boundText_bound h.stop
  cases stride with
  | none =>
    have hs := SliceText.bounds hstart blanks_nil blanks_nil hstop
    simpa [Slice.text] using hs
  | some n =>
    have hstride := BoundText.some (integerText_ofInt (h.stride n rfl))
    have hs := SliceText.stride hstart blanks_nil blanks_nil hstop blanks_nil blanks_nil hstride
      h.stride_ne_zero
    simpa [Slice.text] using hs

theorem numberText_of_numeralText {s : List Char} {n : Numeral} (h : Numeral.NumeralText s n)
    (hn : n.number.IsFinite) : NumberText s n.number := by
  cases h with
  | mk negative hw hf he => exact .mk negative hw.isDigits hf he hn

theorem numberText_text {x : Number} (h : x.IsFinite) : NumberText x.text x.asWritten := by
  obtain ⟨n, hn, hnumber⟩ := Number.numeralText_text h
  have hfinite := Number.isFinite_asWritten h
  rw [← hnumber] at hfinite ⊢
  exact numberText_of_numeralText hn hfinite

theorem segmentsText_text {selectors : List Selector} (h : ∀ s ∈ selectors, s.InRange) :
    SegmentsText (selectors.flatMap Selector.segment) selectors := by
  induction selectors with
  | nil => exact .nil
  | cons selector selectors ih =>
    obtain ⟨hs, hmore⟩ := List.forall_mem_cons.mp h
    exact .cons (.bracket blanks_nil (selectorText_text hs) blanks_nil) (ih hmore)

theorem operandText_text {o : Operand} (h : o.WellFormed) : OperandText o.text o.asWritten := by
  cases o with
  | reference r => exact .reference r.anchor (segmentsText_text h)
  | literal v =>
    cases v with
    | null => exact .nullWord
    | boolean b =>
      cases b with
      | true => exact .trueWord
      | false => exact .falseWord
    | number x => exact .number (numberText_text h)
    | string s => exact .string (quotedText_quotedName s)
    | array elements => exact False.elim h
    | object members => exact False.elim h

theorem blanks_space : Blanks [' '] := by
  rintro _ (_ | ⟨_, ⟨⟩⟩)
  rfl

/-- The text of a condition stands by itself: it joins nothing without parentheses around it. -/
theorem unaryText_text {c : Condition} (depth : Nat) (h : c.WellFormed)
    (hdepth : c.nesting ≤ depth) : UnaryText depth c.text c.asWritten := by
  induction c generalizing depth with
  | present r => exact .comparing (.present (operandText_text (o := .reference r) h))
  | compare left comparison right =>
    have hs := ComparingText.compare comparison (operandText_text h.1) blanks_space blanks_space
      (operandText_text h.2)
    refine .comparing ?_
    simpa [Condition.text, Condition.asWritten] using hs
  | and left right ihl ihr =>
    rw [Condition.nesting] at hdepth
    obtain ⟨depth, rfl⟩ := Nat.exists_eq_add_of_le' (Nat.le_trans (Nat.le_add_right ..) hdepth)
    have hleft := ihl depth h.1 (by omega)
    have hright := ihr depth h.2 (by omega)
    have hs := UnaryText.group blanks_nil
      (.conjunction (.and (.unary hleft) blanks_space blanks_space hright)) blanks_nil
    simpa [Condition.text, Condition.asWritten] using hs
  | or left right ihl ihr =>
    rw [Condition.nesting] at hdepth
    obtain ⟨depth, rfl⟩ := Nat.exists_eq_add_of_le' (Nat.le_trans (Nat.le_add_right ..) hdepth)
    have hleft := ihl depth h.1 (by omega)
    have hright := ihr depth h.2 (by omega)
    have hs := UnaryText.group blanks_nil
      (.or (.conjunction (.unary hleft)) blanks_space blanks_space (.unary hright)) blanks_nil
    simpa [Condition.text, Condition.asWritten] using hs
  | not inner ih =>
    rw [Condition.nesting] at hdepth
    obtain ⟨depth, rfl⟩ := Nat.exists_eq_add_of_le' (Nat.le_trans (Nat.le_add_right ..) hdepth)
    have hinner := ih depth h (by omega)
    have hs := UnaryText.not blanks_nil
      (.group blanks_nil (.conjunction (.unary hinner)) blanks_nil)
    simpa [Condition.text, Condition.asWritten] using hs

/-- Steps behind the root begin with a picking step or with a descent and a picking step. -/
theorem Arranged.cons_cases {step : Step} {path : Path} (h : Arranged (step :: path)) :
    (step.Picks ∧ Arranged path) ∨
      step = .descent ∧ ∃ next rest, path = next :: rest ∧ next.Picks ∧ Arranged rest := by
  obtain ⟨hroot, hdescent, hpath⟩ := h
  cases step with
  | root => exact absurd rfl hroot
  | descent =>
    obtain ⟨next, hnext, hpicks⟩ := hdescent rfl
    cases path with
    | nil => cases hnext
    | cons step rest =>
      cases hnext
      exact .inr ⟨rfl, next, rest, rfl, hpicks, hpath.2.2⟩
  | _ => exact .inl ⟨trivial, hpath⟩

mutual

theorem bracketText_text (depth : Nat) : (step : Step) → step.Picks → StepWellFormed step →
    stepNesting step ≤ depth → BracketText depth (stepText step) (stepAsWritten step)
  | .select selector, _, h, _ => .mk blanks_nil (.selector (selectorText_text h)) blanks_nil
  | .wildcard, _, _, _ => .mk blanks_nil .wildcard blanks_nil
  | .slice slice, _, h, _ => .mk blanks_nil (.slice (sliceText_text h)) blanks_nil
  | .filter c, _, h, hdepth => by
    rw [stepNesting] at hdepth
    obtain ⟨depth, rfl⟩ := Nat.exists_eq_add_of_le' (Nat.le_trans (Nat.le_add_right ..) hdepth)
    have hc := unaryText_text depth h (by omega)
    have hgroup := UnaryText.group blanks_nil (.conjunction (.unary hc)) blanks_nil
    have hs := BracketText.mk blanks_nil (.filter blanks_nil (.conjunction (.unary hgroup)))
      blanks_nil
    simpa [stepText, stepAsWritten] using hs
  | .union (first :: second :: selectors), _, h, _ => by
    obtain ⟨hfirst, hmore⟩ := List.forall_mem_cons.mp h.2
    have hs : ContentText depth _ (.union (first :: second :: selectors)) :=
      .union (selectorText_text hfirst) (moreSelectors_text hmore)
    rw [← intercalate_text] at hs
    exact .mk blanks_nil hs blanks_nil
  | .dynamic (.root :: path), _, h, hdepth => by
    rw [stepNesting, nesting] at hdepth
    obtain ⟨depth, rfl⟩ := Nat.exists_eq_add_of_le' (Nat.le_trans (Nat.le_add_right ..) hdepth)
    have hs := stepsText_text depth path h.1 h.2 (by omega)
    exact .mk blanks_nil (.path hs) blanks_nil

theorem stepsText_text (depth : Nat) : (path : Path) → Arranged path → StepsWellFormed path →
    nesting path ≤ depth → StepsText depth (text path) (asWritten path)
  | [], _, _, _ => .blanks blanks_nil
  | step :: path, harranged, h, hdepth => by
    rw [nesting] at hdepth
    rcases harranged.cons_cases with ⟨hpicks, hrest⟩ | ⟨rfl, next, rest, rfl, hpicks, hrest⟩
    · have hs := bracketText_text depth step hpicks h.1 (by omega)
      have hpath := stepsText_text depth path hrest h.2 (by omega)
      exact .step blanks_nil (.bracket hs) hpath
    · rw [nesting] at hdepth
      have hs := bracketText_text depth next hpicks h.2.1 (by omega)
      have hpath := stepsText_text depth rest hrest h.2.2 (by omega)
      have hsteps := StepsText.step blanks_nil (.dotsBracket blanks_nil hs) hpath
      simpa [text, stepText, asWritten, stepAsWritten] using hsteps

end

/-- The canonical text derives the path within any depth that its nesting keeps to. -/
theorem queryText_text {depth : Nat} {path : Path} (h : WellFormed path)
    (hdepth : nesting path ≤ depth) : QueryText depth (text path) (asWritten path) := by
  cases path with
  | nil => exact False.elim h
  | cons step path =>
    cases step with
    | root =>
      rw [nesting] at hdepth
      exact .mk blanks_nil (stepsText_text depth path h.1 h.2 (by omega))
    | _ => exact False.elim h

end JsonQuery.Path
