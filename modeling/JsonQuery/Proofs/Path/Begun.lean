import JsonQuery.Proofs.Number.Written
import JsonQuery.Proofs.Path.Comparing

/-!
Where the readers of the parts of a query refuse a text, from names to comparisons. All before the
place of the fault is the beginning of a text of the form that is read. Nesting too deeply is the
one fault of which this does not hold, since no text goes on from there.
-/

namespace JsonQuery.Path

open Text (skipBlank bind_eq_ok bind_eq_error)

/-- Texts that derive something. -/
def Derives {α : Type} (TextOf : List Char → α → Prop) (s : List Char) : Prop := ∃ a, TextOf s a

theorem Derives.of_eq {α : Type} {TextOf : List Char → α → Prop} {s t : List Char} {a : α}
    (h : TextOf s a) (heq : s = t) : Derives TextOf t :=
  ⟨a, heq ▸ h⟩

/-- Texts of a form behind blanks. -/
def Padded (Form : List Char → Prop) (s : List Char) : Prop :=
  ∃ p t, Blanks p ∧ Form t ∧ s = p ++ t

/-- What stands before the place of the fault goes on to a text of the form, unless it nests too
deeply. -/
def Begun (Form : List Char → Prop) (text : List Char) (fault : Fault) : Prop :=
  ∃ s, text = s ++ fault.rest ∧ (fault.cause ≠ .malformed .tooDeep → ∃ u, Form (s ++ u))

section Begun

variable {Form Form' : List Char → Prop} {text rest : List Char} {fault : Fault}

theorem Begun.behind (h : Begun Form rest fault) (p : List Char) (htext : text = p ++ rest)
    (hform : ∀ s, Form s → ∃ u, Form' (p ++ (s ++ u))) : Begun Form' text fault := by
  obtain ⟨s, rfl, hs⟩ := h
  refine ⟨p ++ s, by rw [htext, List.append_assoc], fun hcause => ?_⟩
  obtain ⟨u, hu⟩ := hs hcause
  obtain ⟨u', hu'⟩ := hform _ hu
  refine ⟨u ++ u', ?_⟩
  simpa only [List.append_assoc] using hu'

theorem Begun.mono (h : Begun Form text fault) (hform : ∀ s, Form s → ∃ u, Form' (s ++ u)) :
    Begun Form' text fault :=
  h.behind [] rfl hform

theorem Begun.imp (h : Begun Form text fault) (himp : ∀ s, Form s → Form' s) :
    Begun Form' text fault := by
  apply h.mono
  intro s hs
  exact ⟨[], by rw [List.append_nil]; exact himp s hs⟩

theorem begun_front (hrest : fault.rest = text) (h : ∃ s, Form s) : Begun Form text fault :=
  ⟨[], hrest.symm, fun _ => h⟩

theorem begun_tooDeep (s rest : List Char) :
    Begun Form (s ++ rest) ⟨.malformed .tooDeep, rest⟩ :=
  ⟨s, rfl, fun hcause => absurd rfl hcause⟩

/-- A fault behind nothing but blanks. -/
theorem begun_blanks (hrest : fault.rest = skipBlank text) : Begun Blanks text fault := by
  obtain ⟨p, hp, htext⟩ := exists_blanks text
  exact ⟨p, by rw [hrest, ← htext], fun _ => ⟨[], by rwa [List.append_nil]⟩⟩

theorem begun_skipBlank (hrest : fault.rest = skipBlank text) (h : ∃ s, Form s) :
    Begun (Padded Form) text fault := by
  obtain ⟨s, hs⟩ := h
  apply (begun_blanks hrest).mono
  intro p hp
  exact ⟨s, p, s, hp, hs, rfl⟩

theorem Begun.padded (h : Begun Form text fault) {p : List Char} (hp : Blanks p) :
    Begun (Padded Form) (p ++ text) fault := by
  apply h.behind p rfl
  intro s hs
  exact ⟨[], p, s, hp, hs, by rw [List.append_nil]⟩

theorem Begun.blanks (h : Begun (Padded Form) text fault) {p : List Char} (hp : Blanks p) :
    Begun (Padded Form) (p ++ text) fault := by
  apply h.behind p rfl
  rintro _ ⟨q, s, hq, hs, rfl⟩
  exact ⟨[], p ++ q, s, blanks_append hp hq, hs, by simp⟩

theorem Begun.padded_mono (h : Begun (Padded Form) text fault)
    (hform : ∀ s, Form s → ∃ u, Form' (s ++ u)) : Begun (Padded Form') text fault := by
  apply h.mono
  rintro _ ⟨p, s, hp, hs, rfl⟩
  obtain ⟨u, hu⟩ := hform s hs
  exact ⟨u, p, s ++ u, hp, hu, List.append_assoc _ _ _⟩

variable {α β : Type} {TextOf : List Char → α → Prop} {TextOf' : List Char → β → Prop}

theorem Begun.derives (h : Begun (Derives TextOf) text fault)
    (himp : ∀ {s a}, TextOf s a → Derives TextOf' s) : Begun (Derives TextOf') text fault := by
  apply h.imp
  rintro s ⟨a, hs⟩
  exact himp hs

theorem Begun.padded_derives (h : Begun (Padded (Derives TextOf)) text fault)
    (himp : ∀ {s a}, TextOf s a → Derives TextOf' s) :
    Begun (Padded (Derives TextOf')) text fault := by
  apply h.imp
  rintro _ ⟨p, s, hp, ⟨a, hs⟩, rfl⟩
  exact ⟨p, s, hp, himp hs, rfl⟩

end Begun

variable {text : List Char} {fault : Fault}

theorem exists_nameText : ∃ s, Derives NameText s :=
  ⟨['a'], _, .mk (by simp) (by simp [isNameChar, Text.isAlphanumeric, Text.isAlphabetic])⟩

theorem rest_of_memberName {expected : Expected} (h : memberName expected text = .error fault) :
    fault.rest = text := by
  unfold memberName at h
  split at h
  · cases h
    rfl
  · cases h

theorem integerText_zero : IntegerText ['0'] 0 :=
  .mk false Text.isDigits_zero (by decide)

theorem rest_of_integer (h : integer text = .error fault) : fault.rest = text := by
  simp only [integer] at h
  split at h
  · split at h
    · cases h
    · cases h
      rfl
  · cases h
    rfl

theorem rest_of_integer? (h : integer? text = .error fault) : fault.rest = skipBlank text := by
  unfold integer? at h
  split at h
  · rename_i hb
    split at h
    · rcases bind_eq_error.mp h with h | ⟨_, _, h⟩
      · rw [hb, rest_of_integer h]
      · cases h
    · cases h
  · cases h

theorem numberText_zero : Derives NumberText ['0'] :=
  ⟨_, .mk false Text.isDigits_zero .none .none (by decide)⟩

/-- Whatever the digits are, a low enough exponent makes the number finite. -/
theorem exists_exponentText (negative : Bool) (ds fraction : List Char) :
    ∃ e exponent, Numeral.ExponentText e exponent ∧
      (Numeral.number ⟨negative, ds, fraction, exponent⟩).IsFinite := by
  have hlow := Numeral.exponentText_ofInt
    (-((Text.natOfDigits (ds ++ fraction)).log2 + Number.decimalRange + 1 : Nat))
  refine ⟨_, _, hlow, ?_⟩
  rw [Numeral.number_eq]
  exact Number.isFinite_ofDecimal_of_lt_range negative (by omega)

theorem rest_of_exponentPart (h : exponentPart text = .error fault) : fault.rest = text := by
  have hdigits : ∀ rest, Text.exponentDigits (fun _ => ⟨.malformed .exponent, text⟩) rest =
      .error fault → fault.rest = text := by
    intro rest h
    simp only [Text.exponentDigits] at h
    split at h
    · cases h
    · cases h
      rfl
  unfold exponentPart Text.exponentPart at h
  split at h
  · exact hdigits _ h
  · exact hdigits _ h
  · cases h

theorem begun_numberLiteral (h : numberLiteral text = .error fault) :
    Begun (Derives NumberText) text fault := by
  simp only [numberLiteral] at h
  split at h
  · rename_i hd
    rcases bind_eq_error.mp h with hexponent | ⟨_, _, h⟩
    · have hparts : fractionPart (Text.afterDigits (Text.minus text).2) =
          ((fractionPart (Text.afterDigits (Text.minus text).2)).1,
            (fractionPart (Text.afterDigits (Text.minus text).2)).2) := rfl
      obtain ⟨f, hf, hfraction⟩ := Numeral.fractionText_of_pathFractionPart hparts
      obtain ⟨e, exponent, he, hfinite⟩ := exists_exponentText (Text.minus text).1
        (Text.digits (Text.minus text).2)
        (fractionPart (Text.afterDigits (Text.minus text).2)).1
      refine ⟨Text.minusText (Text.minus text).1 ++ (Text.digits (Text.minus text).2 ++ f), ?_,
        fun _ => ⟨e, ?_⟩⟩
      · rw [rest_of_exponentPart hexponent, List.append_assoc, List.append_assoc, ← hfraction,
          Text.digits_append_afterDigits, Numeral.minus_append_rest]
      · exact .of_eq (.mk _ (Text.isDigits_digits hd) hf he hfinite) (by simp)
    · split at h
      · cases h
      · cases h
        exact begun_front rfl ⟨_, numberText_zero⟩
  · cases h
    exact begun_front rfl ⟨_, numberText_zero⟩

theorem begun_char {quote c : Char} {s rest : List Char} (hs : (quoting quote).CharText s c)
    (h : Begun ((quoting quote).TailText quote) rest fault) :
    Begun ((quoting quote).TailText quote) (s ++ rest) fault := by
  apply h.behind s rfl
  intro t ht
  exact ⟨[], by rw [List.append_nil]; exact ht.cons hs⟩

theorem begun_quotedTail {quote : Char} {done : List Char}
    (h : quotedTail quote done text = .error fault) :
    Begun ((quoting quote).TailText quote) text fault := by
  have hquote := (quoting quote).tailText_quote quote
  fun_induction quotedTail quote done text with
  | case1 done =>
    cases h
    exact begun_front rfl ⟨_, hquote⟩
  | case2 done =>
    cases h
    exact begun_front rfl ⟨_, hquote⟩
  | case3 done rest c rest' hescape ih =>
    obtain ⟨s, hs, rfl⟩ := Text.escapeText_of_escapedUnits hescape
    exact begun_char (.escape hs) (ih h)
  | case4 done rest _ _ =>
    cases h
    exact begun_front rfl ⟨_, hquote⟩
  | case5 done letter rest _ c hletter ih =>
    exact begun_char (.letter (unescape?_eq_some_iff.mp hletter)) (ih h)
  | case6 done letter rest _ _ =>
    cases h
    exact begun_front rfl ⟨_, hquote⟩
  | case7 => cases h
  | case8 done c rest hlone _ hletter hne ih =>
    have hbackslash : c ≠ '\\' := by
      intro heq
      cases rest with
      | nil => exact hlone heq rfl
      | cons letter rest => exact hletter letter rest heq rfl
    exact begun_char (s := [c]) (.plain ⟨hne, hbackslash⟩) (ih h)

theorem begun_quotedText {c : Char} (hc : isQuote c = true)
    (h : quotedTail c [] text = .error fault) :
    Begun (Derives QuotedText) (c :: text) fault := by
  apply (begun_quotedTail h).behind [c] rfl
  rintro _ ⟨body, cs, hbody, rfl⟩
  exact ⟨[], .of_eq (.mk (isQuote_iff.mp hc) hbody) (by simp)⟩

theorem selectorText_zero : Derives SelectorText ['0'] := ⟨_, .index integerText_zero⟩

theorem begun_selector (h : selector text = .error fault) :
    Begun (Derives SelectorText) text fault := by
  unfold selector at h
  split at h
  · split at h
    · rename_i hc
      rcases bind_eq_error.mp h with h | ⟨_, _, h⟩
      · exact (begun_quotedText hc h).derives fun hs => ⟨_, .name hs⟩
      · cases h
    · split at h
      · rcases bind_eq_error.mp h with h | ⟨_, _, h⟩
        · exact begun_front (rest_of_integer h) ⟨_, selectorText_zero⟩
        · cases h
      · cases h
        exact begun_front rfl ⟨_, selectorText_zero⟩
  · cases h
    exact begun_front rfl ⟨_, selectorText_zero⟩

theorem rest_of_expect {wanted : Char} (h : expect wanted text = .error fault) :
    fault.rest = skipBlank text := by
  unfold expect at h
  split at h
  · rename_i hb
    split at h
    · cases h
    · cases h
      rw [hb]
  · rename_i hb
    cases h
    rw [hb]

/-- A character that is missing behind blanks. -/
theorem begun_expect {wanted : Char} (h : expect wanted text = .error fault) :
    Begun (Padded (· = [wanted])) text fault :=
  begun_skipBlank (rest_of_expect h) ⟨_, rfl⟩

/-- What is not offered is refused at the front of the reference's segment, all else within the
brackets. -/
theorem begun_bracketSelector {start : List Char}
    (h : bracketSelector start text = .error fault) :
    fault.rest = start ∨ Begun (Padded (Derives SelectorText)) text fault := by
  unfold bracketSelector at h
  split at h
  · rename_i hb
    cases h
    exact .inr (begun_skipBlank hb.symm ⟨_, selectorText_zero⟩)
  · rename_i c rest hb
    obtain ⟨p, hp, rfl⟩ := exists_blanks_of_skipBlank hb
    split at h
    · rename_i hc
      rcases bind_eq_error.mp h with h | ⟨_, _, h⟩
      · exact .inr (((begun_quotedText hc h).derives fun hs => ⟨_, .name hs⟩).padded hp)
      · cases h
    · split at h
      · rcases bind_eq_error.mp h with h | ⟨_, _, h⟩
        · refine .inr (Begun.padded (begun_front (rest_of_integer h) ?_) hp)
          exact ⟨_, selectorText_zero⟩
        · simp only at h
          split at h
          · cases h
            exact .inl rfl
          · cases h
      · split at h
        · cases h
          exact .inr (begun_skipBlank hb.symm ⟨_, selectorText_zero⟩)
        · cases h
          exact .inl rfl

theorem exists_segmentText : ∃ s, Derives SegmentText s := by
  obtain ⟨s, name, hs⟩ := exists_nameText
  exact ⟨_, _, .name hs⟩

theorem begun_segment? (h : segment? text = .error fault) :
    Begun (Derives SegmentText) text fault := by
  unfold segment? at h
  split at h
  · cases h
    exact begun_front rfl exists_segmentText
  · cases h
    exact begun_front rfl exists_segmentText
  · rename_i rest _ _
    rcases bind_eq_error.mp h with h | ⟨_, _, h⟩
    · have hname : Begun (Derives NameText) rest fault :=
        begun_front (rest_of_memberName h) exists_nameText
      apply hname.behind ['.'] rfl
      rintro s ⟨name, hs⟩
      exact ⟨[], .of_eq (.name hs) (by simp)⟩
    · cases h
  · rename_i rest
    rcases bind_eq_error.mp h with h | ⟨⟨sel, rest'⟩, hread, h⟩
    · rcases begun_bracketSelector h with hstart | hbegun
      · exact begun_front hstart exists_segmentText
      · apply hbegun.behind ['['] rfl
        rintro _ ⟨p, s, hp, ⟨sel, hs⟩, rfl⟩
        exact ⟨[']'], .of_eq (.bracket hp hs blanks_nil) (by simp)⟩
    · obtain ⟨p, s, q, hp, hs, hq, rfl⟩ := selectorText_of_bracketSelector hread
      simp only at h
      split at h
      · cases h
        exact begun_front rfl exists_segmentText
      · rw [expect_skipBlank] at h
        rcases bind_eq_error.mp h with h | ⟨_, _, h⟩
        · apply (begun_expect h).behind ('[' :: (p ++ (s ++ q))) (by simp)
          rintro _ ⟨r, _, hr, rfl, rfl⟩
          exact ⟨[], .of_eq (.bracket hp hs (blanks_append hq hr)) (by simp)⟩
        · cases h
  · cases h

theorem begun_segments {done : List Selector} (h : segments done text = .error fault) :
    Begun (Derives SegmentsText) text fault := by
  fun_induction segments done text with
  | case1 done text sel rest hread ih =>
    obtain ⟨s, hs, rfl⟩ := segmentText_of_segment? hread
    apply (ih h).behind s rfl
    rintro t ⟨sels, ht⟩
    exact ⟨[], .of_eq (.cons hs ht) (by simp)⟩
  | case2 => cases h
  | case3 done text e hread =>
    cases h
    apply (begun_segment? hread).mono
    rintro s ⟨sel, hs⟩
    exact ⟨[], .of_eq (.cons hs .nil) (by simp)⟩

theorem operandText_zero : Derives OperandText ['0'] := by
  obtain ⟨x, hs⟩ := numberText_zero
  exact ⟨_, .number hs⟩

theorem begun_reference (anchor : Anchor) (h : segments [] text = .error fault) :
    Begun (Derives OperandText) (anchor.mark :: text) fault := by
  apply (begun_segments h).behind [anchor.mark] rfl
  rintro s ⟨sels, hs⟩
  exact ⟨[], .of_eq (.reference anchor hs) (by simp)⟩

theorem begun_operand (h : operand text = .error fault) :
    Begun (Padded (Derives OperandText)) text fault := by
  unfold operand at h
  split at h
  · rename_i rest hb
    obtain ⟨p, hp, rfl⟩ := exists_blanks_of_skipBlank hb
    rcases bind_eq_error.mp h with h | ⟨_, _, h⟩
    · exact (begun_reference .current h).padded hp
    · cases h
  · rename_i rest hb
    obtain ⟨p, hp, rfl⟩ := exists_blanks_of_skipBlank hb
    rcases bind_eq_error.mp h with h | ⟨_, _, h⟩
    · exact (begun_reference .root h).padded hp
    · cases h
  · rename_i c rest _ _ hb
    have hfront : fault.rest = c :: rest → Begun (Padded (Derives OperandText)) text fault :=
      fun hrest => begun_skipBlank (hrest.trans hb.symm) ⟨_, operandText_zero⟩
    obtain ⟨p, hp, rfl⟩ := exists_blanks_of_skipBlank hb
    split at h
    · rename_i hc
      rcases bind_eq_error.mp h with h | ⟨_, _, h⟩
      · exact ((begun_quotedText hc h).derives fun hs => ⟨_, .string hs⟩).padded hp
      · cases h
    · split at h
      · rcases bind_eq_error.mp h with h | ⟨_, _, h⟩
        · exact ((begun_numberLiteral h).derives fun hs => ⟨_, .number hs⟩).padded hp
        · cases h
      · split at h
        · simp only at h
          split at h
          · cases h
            exact hfront rfl
          · split at h
            · cases h
            · cases h
              exact hfront rfl
        · cases h
          exact hfront rfl
  · rename_i hb
    cases h
    exact begun_skipBlank hb.symm ⟨_, operandText_zero⟩

theorem rest_of_comparison? (h : comparison? text = .error fault) : fault.rest = text := by
  unfold comparison? at h
  split at h
  case h_9 =>
    simp only at h
    split at h
    · split at h
      · cases h
        rfl
      · cases h
        rfl
    · cases h
  all_goals
    cases h
    try rfl

/-- Any operand goes on to a comparison. -/
theorem exists_comparingText {s p : List Char} {o : Operand} (hs : OperandText s o)
    (hp : Blanks p) : ∃ u, Derives ComparingText (s ++ (p ++ u)) := by
  obtain ⟨right, ht⟩ := operandText_zero
  exact ⟨_, .of_eq (.compare .eq hs hp blanks_nil ht) rfl⟩

/-- Behind its mark a comparison goes on with the right operand. -/
theorem begun_right {p s q : List Char} {left : Operand} (hp : Blanks p) (hs : OperandText s left)
    (hq : Blanks q) (comparison : Comparison)
    (h : Begun (Padded (Derives OperandText)) text fault) :
    Begun (Padded (Derives ComparingText))
      (p ++ (s ++ (q ++ (comparison.mark.toList ++ text)))) fault := by
  refine Begun.padded ?_ hp
  apply h.behind (s ++ (q ++ comparison.mark.toList)) (by simp)
  rintro _ ⟨r, t, hr, ⟨right, ht⟩, rfl⟩
  exact ⟨[], .of_eq (.compare comparison hs hq hr ht) (by simp)⟩

theorem begun_comparing (h : comparing text = .error fault) :
    Begun (Padded (Derives ComparingText)) text fault := by
  rcases bind_eq_error.mp h with hleft | ⟨⟨left, rest₁⟩, hleft, h⟩
  · apply (begun_operand hleft).padded_mono
    rintro s ⟨o, hs⟩
    exact exists_comparingText hs blanks_nil
  · obtain ⟨p, s, hp, hs, rfl⟩ := operandText_of_operand hleft
    obtain ⟨q, hq, hrest⟩ := exists_blanks rest₁
    obtain ⟨u, hu⟩ := exists_comparingText hs hq
    rcases bind_eq_error.mp h with hmark | ⟨⟨comparison, rest₂⟩, hmark, h⟩
    · refine ⟨p ++ (s ++ q), ?_, fun _ => ⟨u, p, _, hp, hu, by simp⟩⟩
      rw [rest_of_comparison? hmark, List.append_assoc, List.append_assoc, ← hrest]
    · have heq := comparison?_eq_ok hmark
      simp only at h
      split at h
      · cases h
      · cases h
        exact begun_front rfl ⟨_, [], _, blanks_nil, hu, rfl⟩
      · rw [hrest, heq]
        apply begun_right hp hs hq
        split at h
        · cases h
          exact begun_skipBlank rfl ⟨_, operandText_zero⟩
        · rcases bind_eq_error.mp h with h | ⟨_, _, h⟩
          · obtain ⟨r, hr, hrest₂⟩ := exists_blanks rest₂
            rw [hrest₂]
            exact (begun_operand h).blanks hr
          · cases h

end JsonQuery.Path
