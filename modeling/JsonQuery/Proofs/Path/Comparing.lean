import JsonQuery.Proofs.Path.Lexeme

/-!
References, operands and comparisons are read by their grammar. Behind a condition stand blanks and
then a mark that goes on with the condition around it, or a bracket that ends it.
-/

namespace JsonQuery.Path

open Text (skipBlank isBlank bind_eq_ok skipBlank_cons startsWithDigit takeWhile_append_of_head)

theorem expect_of_skipBlank {c : Char} {text rest : List Char} (h : skipBlank text = c :: rest) :
    expect c text = .ok rest := by
  rw [expect, h]
  simp only [if_true]

theorem expect_cons {c : Char} (hc : isBlank c = false) (rest : List Char) :
    expect c (c :: rest) = .ok rest :=
  expect_of_skipBlank (skipBlank_cons hc rest)

theorem expect_skipBlank (wanted : Char) (text : List Char) :
    expect wanted (skipBlank text) = expect wanted text := by
  rw [expect, expect, Text.skipBlank_skipBlank]

theorem exists_blanks_of_expect {wanted : Char} {text rest : List Char}
    (h : expect wanted text = .ok rest) : ∃ q, Blanks q ∧ text = q ++ wanted :: rest := by
  unfold expect at h
  split at h
  · rename_i c t hb
    obtain ⟨q, hq, rfl⟩ := exists_blanks_of_skipBlank hb
    split at h
    · rename_i hc
      cases h
      exact ⟨q, hq, by rw [hc]⟩
    · cases h
  · cases h

theorem bracketSelector_append {s q : List Char} {selector : Selector}
    (hs : SelectorText s selector) (hq : Blanks q) (rest start : List Char) :
    ∃ rest', bracketSelector start (s ++ (q ++ ']' :: rest)) = .ok (selector, rest') ∧
      skipBlank rest' = ']' :: rest := by
  have hclose : skipBlank (q ++ ']' :: rest) = ']' :: rest := skipBlank_mark hq rfl rest
  have hskip := hs.skipBlank_append (q ++ ']' :: rest)
  cases hs with
  | name hs =>
    obtain ⟨c, t, heq, hc, hread⟩ := quotedTail_append hs (q ++ ']' :: rest)
    refine ⟨q ++ ']' :: rest, ?_, hclose⟩
    rw [heq] at hskip ⊢
    simp only [bracketSelector, hskip, hc, if_true, hread, bind, Except.bind, pure, Except.pure]
  | index hs =>
    have hends : EndsOperand (q ++ ']' :: rest) := endsOperand_of_skipBlank (by
      rw [hclose]
      intro c hc
      cases hc
      decide)
    have hread := integer_append hs hends.endsName.startsWithDigit
    obtain ⟨c, t, rfl, hc⟩ := hs.head
    refine ⟨']' :: rest, ?_, skipBlank_cons (by decide) rest⟩
    rw [List.cons_append] at hread hskip ⊢
    simp only [bracketSelector, hskip, isQuote_of_startsInteger hc, hc, Bool.false_eq_true,
      if_false, if_true, hread, hclose, bind, Except.bind, pure, Except.pure]
    rfl

theorem selectorText_of_bracketSelector {start text rest : List Char} {selector : Selector}
    (h : bracketSelector start text = .ok (selector, rest)) :
    ∃ p s q, Blanks p ∧ SelectorText s selector ∧ Blanks q ∧
      text = p ++ (s ++ (q ++ rest)) := by
  unfold bracketSelector at h
  split at h
  · cases h
  · rename_i c t hb
    obtain ⟨p, hp, rfl⟩ := exists_blanks_of_skipBlank hb
    split at h
    · rename_i hc
      obtain ⟨⟨name, rest'⟩, hname, h⟩ := bind_eq_ok.mp h
      cases h
      obtain ⟨s, hs, heq⟩ := quotedText_of_quotedTail hc hname
      exact ⟨p, s, [], hp, .name hs, blanks_nil, by rw [heq, List.nil_append]⟩
    · split at h
      · obtain ⟨⟨n, rest'⟩, hn, h⟩ := bind_eq_ok.mp h
        obtain ⟨s, hs, heq⟩ := integerText_of_integer hn
        obtain ⟨q, hq, hrest⟩ := exists_blanks rest'
        simp only at h
        split at h
        · cases h
        · cases h
          exact ⟨p, s, q, hp, .index hs, hq, by rw [heq, ← hrest]⟩
      · split at h
        · cases h
        · cases h

theorem segment?_append {s rest : List Char} {selector : Selector} (h : SegmentText s selector)
    (hr : EndsName rest) : segment? (s ++ rest) = .ok (some (selector, rest)) := by
  cases h with
  | name hs =>
    have hread := memberName_append hs hr .memberName
    rw [List.cons_append, segment?, hread]
    · rfl
    · exact fun t => hs.append_ne_cons (by decide) _ t
    · exact fun t => hs.append_ne_cons (by decide) _ t
  | bracket hp hs hq =>
    rename_i p s q
    obtain ⟨rest', hread, hclose⟩ :=
      bracketSelector_append hs hq rest ('[' :: (p ++ (s ++ (q ++ ']' :: rest))))
    have hread' : bracketSelector ('[' :: (p ++ (s ++ (q ++ ']' :: rest))))
        (p ++ (s ++ (q ++ ']' :: rest))) = .ok (selector, rest') := by
      rw [← hread, bracketSelector, bracketSelector, skipBlank_append hp]
    simp only [List.cons_append, List.append_assoc, List.nil_append, segment?, hread', hclose,
      bind, Except.bind]
    rfl

theorem segmentText_of_segment? {text rest : List Char} {selector : Selector}
    (h : segment? text = .ok (some (selector, rest))) :
    ∃ s, SegmentText s selector ∧ text = s ++ rest := by
  unfold segment? at h
  split at h
  · cases h
  · cases h
  · obtain ⟨⟨name, rest'⟩, hname, h⟩ := bind_eq_ok.mp h
    cases h
    obtain ⟨s, hs, rfl⟩ := nameText_of_memberName hname
    exact ⟨'.' :: s, .name hs, rfl⟩
  · obtain ⟨⟨selector', rest'⟩, hread, h⟩ := bind_eq_ok.mp h
    simp only at h
    split at h
    · cases h
    · obtain ⟨rest'', hclose, h⟩ := bind_eq_ok.mp h
      cases h
      obtain ⟨p, s, q, hp, hs, hq, rfl⟩ := selectorText_of_bracketSelector hread
      obtain ⟨r, hr, heq⟩ := exists_blanks_of_expect hclose
      obtain ⟨r', hr', heq'⟩ := exists_blanks_of_skipBlank heq
      refine ⟨_, .bracket hp hs (blanks_append hq (blanks_append hr' hr)), ?_⟩
      rw [heq']
      simp only [List.cons_append, List.append_assoc, List.nil_append]
  · cases h

theorem EndsOperand.segment? {rest : List Char} (h : EndsOperand rest) :
    segment? rest = .ok none := by
  cases rest with
  | nil => rfl
  | cons c rest =>
    obtain ⟨-, hdot, hbracket⟩ := h c rfl
    unfold Path.segment?
    split
    · rename_i heq
      cases heq
      exact absurd rfl hdot
    · rename_i heq
      cases heq
      exact absurd rfl hdot
    · rename_i heq
      cases heq
      exact absurd rfl hdot
    · rename_i heq
      cases heq
      exact absurd rfl hbracket
    · rfl

theorem segments_eq (done : List Selector) (text : List Char) :
    segments done text = segment? text >>= fun found =>
      match found with
      | some (selector, rest) => segments (selector :: done) rest
      | none => .ok (done.reverse, text) := by
  rw [segments.eq_def]
  split <;> simp_all [bind, Except.bind]

theorem SegmentText.head {s : List Char} {selector : Selector} (h : SegmentText s selector) :
    ∃ c t, s = c :: t ∧ (c = '.' ∨ c = '[') := by
  cases h with
  | name _ => exact ⟨_, _, rfl, .inl rfl⟩
  | bracket _ _ _ => exact ⟨_, _, rfl, .inr rfl⟩

/-- Segments end the name before them, and so does what stands behind them. -/
theorem SegmentsText.endsName {s rest : List Char} {selectors : List Selector}
    (h : SegmentsText s selectors) (hr : EndsOperand rest) : EndsName (s ++ rest) := by
  cases h with
  | nil => exact hr.endsName
  | cons hs _ =>
    obtain ⟨c, t, rfl, hc⟩ := hs.head
    rintro _ ⟨⟩
    rcases hc with rfl | rfl <;> decide

theorem segments_append {s rest : List Char} {selectors : List Selector}
    (h : SegmentsText s selectors) (hr : EndsOperand rest) (done : List Selector) :
    segments done (s ++ rest) = .ok (done.reverse ++ selectors, rest) := by
  induction h generalizing done with
  | nil =>
    rw [List.nil_append, segments_eq, hr.segment?, List.append_nil]
    rfl
  | cons hs ht ih =>
    rw [List.append_assoc, segments_eq, segment?_append hs (ht.endsName hr)]
    refine (ih _).trans ?_
    rw [List.reverse_cons, List.append_assoc, List.singleton_append]

theorem segmentsText_of_segments {done selectors : List Selector} {text rest : List Char}
    (h : segments done text = .ok (selectors, rest)) :
    ∃ s new, SegmentsText s new ∧ text = s ++ rest ∧ selectors = done.reverse ++ new := by
  fun_induction segments done text with
  | case1 done text selector rest' hread ih =>
    obtain ⟨s, hs, rfl⟩ := segmentText_of_segment? hread
    obtain ⟨t, new, ht, rfl, rfl⟩ := ih h
    refine ⟨s ++ t, selector :: new, .cons hs ht, by rw [List.append_assoc], ?_⟩
    rw [List.reverse_cons, List.append_assoc, List.singleton_append]
  | case2 done text _ =>
    cases h
    exact ⟨[], [], .nil, rfl, (List.append_nil _).symm⟩
  | case3 => cases h

/-- An operand begins with a mark, a quote, an integer or the letter of a word. -/
theorem OperandText.head {s : List Char} {o : Operand} (h : OperandText s o) :
    ∃ c t, s = c :: t ∧ isBlank c = false ∧ c ∉ ['!', '(', ')', ']', '='] := by
  cases h with
  | reference anchor hs => cases anchor <;> exact ⟨_, _, rfl, by decide⟩
  | string hs =>
    obtain ⟨c, t, hs, hc⟩ := hs.head
    refine ⟨c, t, hs, isBlank_of_isQuote hc, ?_⟩
    simp only [isQuote, Bool.or_eq_true, beq_iff_eq] at hc
    rcases hc with rfl | rfl <;> decide
  | number hs =>
    obtain ⟨c, t, hs, hc⟩ := hs.head
    refine ⟨c, t, hs, isBlank_of_startsInteger hc, fun hmem => ?_⟩
    simp only [List.mem_cons, List.not_mem_nil, or_false] at hmem
    rcases hmem with rfl | rfl | rfl | rfl | rfl <;> cases hc
  | _ => exact ⟨_, _, rfl, by decide⟩

theorem operand_cons {c : Char} (hblank : isBlank c = false) (hcurrent : c ≠ '@') (hroot : c ≠ '$')
    (text : List Char) :
    operand (c :: text) =
      if isQuote c then quotedTail c [] text >>= fun r => .ok (.literal (.string r.1), r.2)
      else if startsInteger c then
        numberLiteral (c :: text) >>= fun r => .ok (.literal (.number r.1), r.2)
      else if Text.isAlphabetic c then
        let word := (c :: text).takeWhile isNameChar
        let after := (c :: text).dropWhile isNameChar
        if (skipBlank after).head? = some '(' then unsupported (.function word) (c :: text)
        else
          match literalWord? word with
          | some v => .ok (.literal v, after)
          | none => malformed (.noLiteral word) (c :: text)
      else malformed (.unexpected .operand) (c :: text) := by
  unfold operand
  rw [skipBlank_cons hblank]
  split
  · rename_i heq
    exact absurd (List.cons.inj heq).1 hcurrent
  · rename_i heq
    exact absurd (List.cons.inj heq).1 hroot
  · rename_i heq
    cases heq
    rfl
  · rename_i heq
    cases heq

theorem operand_word {c : Char} {word rest : List Char} {v : Value}
    (hc : c = 't' ∨ c = 'f' ∨ c = 'n') (hw : (c :: word).all isNameChar = true)
    (hv : literalWord? (c :: word) = some v) (hr : EndsOperand rest)
    (hcall : (skipBlank rest).head? ≠ some '(') :
    operand (c :: (word ++ rest)) = .ok (.literal v, rest) := by
  obtain ⟨htake, hdrop⟩ := takeWhile_append_of_head (List.all_eq_true.mp hw) hr.endsName
  rw [List.cons_append] at htake hdrop
  have hletter : isBlank c = false ∧ c ≠ '@' ∧ c ≠ '$' ∧ isQuote c = false ∧
      startsInteger c = false ∧ Text.isAlphabetic c = true := by
    rcases hc with rfl | rfl | rfl <;> decide
  obtain ⟨hblank, hcurrent, hroot, hquote, hinteger, halphabetic⟩ := hletter
  rw [operand_cons hblank hcurrent hroot]
  simp only [hquote, hinteger, halphabetic, htake, hdrop, hcall, hv, Bool.false_eq_true, if_false,
    if_true]

theorem operand_append {s rest : List Char} {o : Operand} (h : OperandText s o)
    (hr : EndsOperand rest) (hcall : (skipBlank rest).head? ≠ some '(') :
    operand (s ++ rest) = .ok (o, rest) := by
  cases h with
  | reference anchor hs =>
    have hskip := skipBlank_cons (c := anchor.mark) (by cases anchor <;> rfl)
    have hread := segments_append hs hr []
    cases anchor <;>
      simp only [Anchor.mark] at hskip <;>
      simp only [operand, Anchor.mark, List.cons_append, hskip, hread, List.reverse_nil,
        List.nil_append, bind, Except.bind, pure, Except.pure]
  | string hs =>
    obtain ⟨c, t, heq, hc, hread⟩ := quotedTail_append hs rest
    rw [heq, operand_cons (isBlank_of_isQuote hc), if_pos hc, hread]
    · rfl
    all_goals
      rintro rfl
      cases hc
  | number hs =>
    have hread := numberLiteral_append hs hr.ends
    obtain ⟨c, t, rfl, hc⟩ := hs.head
    rw [List.cons_append] at hread ⊢
    rw [operand_cons (isBlank_of_startsInteger hc), if_neg, if_pos hc, hread]
    · rfl
    · rw [isQuote_of_startsInteger hc]
      exact Bool.false_ne_true
    all_goals
      rintro rfl
      cases hc
  | trueWord => exact operand_word (.inl rfl) (by decide) rfl hr hcall
  | falseWord => exact operand_word (.inr (.inl rfl)) (by decide) rfl hr hcall
  | nullWord => exact operand_word (.inr (.inr rfl)) (by decide) rfl hr hcall

theorem operandText_of_literalWord? {word : List Char} {v : Value}
    (h : literalWord? word = some v) : OperandText word (.literal v) := by
  unfold literalWord? at h
  split at h
  · rename_i hw
    cases h
    exact hw ▸ .trueWord
  · split at h
    · rename_i hw
      cases h
      exact hw ▸ .falseWord
    · split at h
      · rename_i hw
        cases h
        exact hw ▸ .nullWord
      · cases h

theorem operandText_of_operand {text rest : List Char} {o : Operand}
    (h : operand text = .ok (o, rest)) :
    ∃ p s, Blanks p ∧ OperandText s o ∧ text = p ++ (s ++ rest) := by
  unfold operand at h
  split at h
  · rename_i rest' hb
    obtain ⟨p, hp, rfl⟩ := exists_blanks_of_skipBlank hb
    obtain ⟨⟨selectors, rest''⟩, hread, h⟩ := bind_eq_ok.mp h
    cases h
    obtain ⟨s, new, hs, rfl, rfl⟩ := segmentsText_of_segments hread
    exact ⟨p, '@' :: s, hp, .reference .current hs, rfl⟩
  · rename_i rest' hb
    obtain ⟨p, hp, rfl⟩ := exists_blanks_of_skipBlank hb
    obtain ⟨⟨selectors, rest''⟩, hread, h⟩ := bind_eq_ok.mp h
    cases h
    obtain ⟨s, new, hs, rfl, rfl⟩ := segmentsText_of_segments hread
    exact ⟨p, '$' :: s, hp, .reference .root hs, rfl⟩
  · rename_i c t _ _ hb
    obtain ⟨p, hp, rfl⟩ := exists_blanks_of_skipBlank hb
    split at h
    · rename_i hc
      obtain ⟨⟨value, rest'⟩, hread, h⟩ := bind_eq_ok.mp h
      cases h
      obtain ⟨s, hs, heq⟩ := quotedText_of_quotedTail hc hread
      exact ⟨p, s, hp, .string hs, by rw [heq]⟩
    · split at h
      · obtain ⟨⟨x, rest'⟩, hread, h⟩ := bind_eq_ok.mp h
        cases h
        obtain ⟨s, hs, heq⟩ := numberText_of_numberLiteral hread
        exact ⟨p, s, hp, .number hs, by rw [heq]⟩
      · split at h
        · simp only at h
          split at h
          · cases h
          · split at h
            · rename_i hword
              cases h
              refine ⟨p, _, hp, operandText_of_literalWord? hword, ?_⟩
              rw [List.takeWhile_append_dropWhile]
            · cases h
        · cases h
  · cases h

/-- The text goes on, behind blanks, with a mark that joins or ends conditions. -/
def EndsCondition (rest : List Char) : Prop :=
  ∀ c ∈ (skipBlank rest).head?, c ∈ ['&', '|', ')', ']']

theorem EndsCondition.endsOperand {rest : List Char} (h : EndsCondition rest) :
    EndsOperand rest := by
  refine endsOperand_of_skipBlank fun c hc => ?_
  have hmark := h c hc
  simp only [List.mem_cons, List.not_mem_nil, or_false] at hmark
  rcases hmark with rfl | rfl | rfl | rfl <;> decide

theorem EndsCondition.head_ne {rest : List Char} (h : EndsCondition rest) :
    (skipBlank rest).head? ≠ some '(' := by
  intro hc
  exact absurd (h '(' hc) (by decide)

theorem EndsCondition.comparison? {rest : List Char} (h : EndsCondition rest) :
    comparison? (skipBlank rest) = .ok (none, skipBlank rest) := by
  unfold EndsCondition at h
  cases hb : skipBlank rest with
  | nil => rfl
  | cons c t =>
    have hc := h c (by rw [hb]; rfl)
    simp only [List.mem_cons, List.not_mem_nil, or_false] at hc
    rcases hc with rfl | rfl | rfl | rfl <;> rfl

/-- A mark is read whole unless an equals sign follows it. -/
theorem comparison?_append (comparison : Comparison) {rest : List Char}
    (hr : rest.head? ≠ some '=') :
    comparison? (comparison.mark.toList ++ rest) = .ok (some comparison, rest) := by
  cases comparison with
  | lt =>
    have hread : comparison? ('<' :: rest) = .ok (some .lt, rest) := by
      rw [comparison?]
      rintro t rfl
      exact hr rfl
    exact hread
  | gt =>
    have hread : comparison? ('>' :: rest) = .ok (some .gt, rest) := by
      rw [comparison?]
      rintro t rfl
      exact hr rfl
    exact hread
  | _ => rfl

theorem comparison?_eq_ok {text rest : List Char} {c : Option Comparison}
    (h : comparison? text = .ok (c, rest)) :
    match c with
    | some comparison => text = comparison.mark.toList ++ rest
    | none => text = rest := by
  unfold comparison? at h
  split at h
  case h_9 =>
    simp only at h
    split at h
    · split at h <;> cases h
    · cases h
      rfl
  all_goals
    cases h
    try rfl

theorem Comparison.mark_head (comparison : Comparison) :
    ∃ c t, comparison.mark.toList = c :: t ∧ isBlank c = false ∧ isNameChar c = false ∧
      c ∉ ['.', '[', '('] := by
  cases comparison <;> exact ⟨_, _, rfl, by decide⟩

/-- The operand before a mark ends there, and the mark is what follows. -/
theorem endsOperand_mark {p : List Char} (hp : Blanks p) (comparison : Comparison)
    (rest : List Char) :
    EndsOperand (p ++ (comparison.mark.toList ++ rest)) ∧
      skipBlank (p ++ (comparison.mark.toList ++ rest)) = comparison.mark.toList ++ rest ∧
      (comparison.mark.toList ++ rest).head? ≠ some '(' := by
  obtain ⟨c, t, heq, hblank, hname, hmark⟩ := Comparison.mark_head comparison
  simp only [List.mem_cons, List.not_mem_nil, or_false, not_or] at hmark
  have hskip : skipBlank (p ++ (comparison.mark.toList ++ rest)) =
      comparison.mark.toList ++ rest := by
    rw [skipBlank_append hp, heq, List.cons_append, skipBlank_cons hblank]
  refine ⟨endsOperand_of_skipBlank ?_, hskip, ?_⟩
  · rw [hskip, heq]
    rintro _ ⟨⟩
    exact ⟨hname, hmark.1, hmark.2.1⟩
  · rw [heq]
    rintro ⟨⟩
    exact hmark.2.2 rfl

theorem head?_append_ne {q : List Char} (hq : Blanks q) {c mark : Char} {t : List Char}
    (hmark : isBlank mark = false) (hc : c ≠ mark) : (q ++ c :: t).head? ≠ some mark := by
  cases q with
  | nil => exact fun h => hc (Option.some.inj h)
  | cons d q =>
    rintro ⟨⟩
    rw [hq mark List.mem_cons_self] at hmark
    cases hmark

/-- What is left behind a condition differs from what stands behind it by blanks. -/
theorem comparing_append {s rest : List Char} {c : Condition} (h : ComparingText s c)
    (hr : EndsCondition rest) :
    ∃ rest', comparing (s ++ rest) = .ok (c, rest') ∧ skipBlank rest' = skipBlank rest := by
  cases h with
  | present hs =>
    have hread := operand_append hs hr.endsOperand hr.head_ne
    refine ⟨skipBlank rest, ?_, Text.skipBlank_skipBlank rest⟩
    simp only [comparing, hread, hr.comparison?, bind, Except.bind, pure, Except.pure]
  | compare comparison hs hp hq ht =>
    rename_i s p q t left right
    obtain ⟨hends, hskip, hcall⟩ := endsOperand_mark hp comparison (q ++ (t ++ rest))
    have hleft := operand_append hs hends (by rwa [hskip])
    have hright := operand_append ht hr.endsOperand hr.head_ne
    obtain ⟨d, u, rfl, hblank, hd⟩ := ht.head
    simp only [List.mem_cons, List.not_mem_nil, or_false, not_or] at hd
    have hmark := comparison?_append comparison
      (head?_append_ne hq (t := u ++ rest) (by decide) hd.2.2.2.2)
    have hoperand : skipBlank (q ++ (d :: u ++ rest)) = d :: u ++ rest := by
      rw [skipBlank_append hq, List.cons_append, skipBlank_cons hblank]
    have hhead : (d :: u ++ rest).head?.all (· ∈ [')', ']']) = false := by
      simp [hd.2.2.1, hd.2.2.2.1]
    refine ⟨rest, ?_, rfl⟩
    simp only [List.append_assoc, comparing, hleft, hskip, bind, Except.bind]
    rw [List.cons_append, hmark, ← List.cons_append]
    simp only [hoperand, hhead, hright, Bool.false_eq_true, if_false, pure, Except.pure]

theorem comparingText_of_comparing {text rest : List Char} {c : Condition}
    (h : comparing text = .ok (c, rest)) :
    ∃ p s q, Blanks p ∧ ComparingText s c ∧ Blanks q ∧ text = p ++ (s ++ (q ++ rest)) := by
  obtain ⟨⟨left, rest₁⟩, hleft, h⟩ := bind_eq_ok.mp h
  obtain ⟨⟨comparison, rest₂⟩, hmark, h⟩ := bind_eq_ok.mp h
  obtain ⟨p, s, hp, hs, rfl⟩ := operandText_of_operand hleft
  obtain ⟨q, hq, hskip⟩ := exists_blanks rest₁
  have heq := comparison?_eq_ok hmark
  simp only at h
  split at h
  · cases h
    exact ⟨p, s, q, hp, .present hs, hq, by rw [hskip, ← heq]⟩
  · cases h
  · split at h
    · cases h
    · obtain ⟨⟨right, rest₃⟩, hright, h⟩ := bind_eq_ok.mp h
      cases h
      obtain ⟨r, t, hr, ht, hoperand⟩ := operandText_of_operand hright
      obtain ⟨r', hr', hblank⟩ := exists_blanks rest₂
      refine ⟨p, _, [], hp, .compare _ hs hq (blanks_append hr' hr) ht, blanks_nil, ?_⟩
      rw [hskip, heq, hblank, hoperand]
      simp only [List.append_assoc, List.nil_append]

end JsonQuery.Path
