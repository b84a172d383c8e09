import JsonQuery.Proofs.Path.Condition

/-!
Brackets are read by their grammar, except for the paths in them. A first index may begin a slice;
only the colon behind it tells.
-/

namespace JsonQuery.Path

open Text (skipBlank isBlank bind_eq_ok skipBlank_cons startsWithDigit)

theorem selectors_eq (done : List Selector) (text : List Char) :
    selectors done text =
      match skipBlank text with
      | ',' :: rest => selector (skipBlank rest) >>= fun r => selectors (r.1 :: done) r.2
      | rest => .ok (done.reverse, rest) := by
  rw [selectors.eq_def]
  split
  · rename_i h
    simp only [h]
    split <;> simp_all [bind, Except.bind]
  · rename_i hne
    split
    · rename_i heq
      exact absurd heq (hne _)
    · rfl

theorem selectors_of_head {text : List Char} (h : (skipBlank text).head? ≠ some ',')
    (done : List Selector) : selectors done text = .ok (done.reverse, skipBlank text) := by
  rw [selectors_eq]
  split
  · rename_i heq
    rw [heq] at h
    exact absurd rfl h
  · rfl

theorem selectors_skipBlank (done : List Selector) (text : List Char) :
    selectors done (skipBlank text) = selectors done text := by
  rw [selectors_eq, Text.skipBlank_skipBlank, ← selectors_eq]

theorem endsOperand_mark_of_skipBlank {text rest : List Char} {c : Char}
    (h : skipBlank text = c :: rest) (hc : c = ',' ∨ c = ':' ∨ c = ']') : EndsOperand text := by
  refine endsOperand_of_skipBlank ?_
  rw [h]
  rintro _ ⟨⟩
  rcases hc with rfl | rfl | rfl <;> decide

/-- Behind a selector stands a comma or what ends the bracket. -/
theorem MoreSelectors.exists_skipBlank {t q : List Char} {ss : List Selector}
    (h : MoreSelectors t ss) (hq : Blanks q) (rest : List Char) :
    ∃ t' q', MoreSelectors t' ss ∧ Blanks q' ∧
      skipBlank (t ++ (q ++ ']' :: rest)) = t' ++ (q' ++ ']' :: rest) ∧
      ∃ c u, t' ++ (q' ++ ']' :: rest) = c :: u ∧ (c = ',' ∨ c = ']') := by
  cases h with
  | nil =>
    exact ⟨[], [], .nil, blanks_nil, skipBlank_mark hq rfl rest, ']', rest, rfl, .inr rfl⟩
  | cons hp hr hs ht =>
    refine ⟨_, q, .cons blanks_nil hr hs ht, hq, ?_, ',', _, rfl, .inl rfl⟩
    rw [List.append_assoc, List.cons_append, skipBlank_mark hp rfl]
    rfl

/-- Blanks before the selectors belong to the first comma, or to what ends the bracket. -/
theorem MoreSelectors.blanks_append {p t q : List Char} {ss : List Selector}
    (h : MoreSelectors t ss) (hp : Blanks p) (hq : Blanks q) :
    ∃ t' q', MoreSelectors t' ss ∧ Blanks q' ∧ p ++ (t ++ q) = t' ++ q' := by
  cases h with
  | nil => exact ⟨[], p ++ q, .nil, Path.blanks_append hp hq, rfl⟩
  | cons hp' hr hs ht =>
    refine ⟨_, q, .cons (Path.blanks_append hp hp') hr hs ht, hq, ?_⟩
    simp only [List.append_assoc, List.cons_append]

theorem MoreSelectors.endsOperand {t q : List Char} {ss : List Selector}
    (h : MoreSelectors t ss) (hq : Blanks q) (rest : List Char) :
    EndsOperand (t ++ (q ++ ']' :: rest)) := by
  obtain ⟨t', q', -, -, hskip, c, u, heq, hc⟩ := h.exists_skipBlank hq rest
  refine endsOperand_mark_of_skipBlank (hskip.trans heq) ?_
  rcases hc with hc | hc
  · exact .inl hc
  · exact .inr (.inr hc)

theorem selectors_append {t q : List Char} {ss : List Selector} (h : MoreSelectors t ss)
    (hq : Blanks q) (rest : List Char) (done : List Selector) :
    selectors done (t ++ (q ++ ']' :: rest)) = .ok (done.reverse ++ ss, ']' :: rest) := by
  induction h generalizing done with
  | nil =>
    have hmark := skipBlank_mark hq (c := ']') rfl rest
    rw [List.nil_append, selectors_of_head (by rw [hmark]; simp), hmark, List.append_nil]
  | cons hp hr hs ht ih =>
    rename_i p r s t selector ss
    have hread := selector_append hs (ht.endsOperand hq rest).endsName.startsWithDigit
    simp only [List.append_assoc, List.cons_append]
    rw [selectors_eq, skipBlank_mark hp rfl]
    simp only [skipBlank_append hr, hs.skipBlank_append, hread]
    refine (ih _).trans ?_
    rw [List.reverse_cons, List.append_assoc, List.singleton_append]

theorem moreSelectors_of_selectors {done ss : List Selector} {text rest : List Char}
    (h : selectors done text = .ok (ss, rest)) :
    ∃ s new q, MoreSelectors s new ∧ Blanks q ∧ text = s ++ (q ++ rest) ∧
      ss = done.reverse ++ new := by
  fun_induction selectors done text with
  | case1 done text rest₁ hb s rest₂ hs ih =>
    obtain ⟨p, hp, rfl⟩ := exists_blanks_of_skipBlank hb
    obtain ⟨q, hq, heq⟩ := exists_blanks rest₁
    obtain ⟨t, ht, hskip⟩ := selectorText_of_selector hs
    obtain ⟨u, new, r, hu, hr, rfl, rfl⟩ := ih h
    refine ⟨_, _, r, .cons hp hq ht hu, hr, ?_, ?_⟩
    · rw [heq, hskip]
      simp only [List.append_assoc, List.cons_append]
    · rw [List.reverse_cons, List.append_assoc, List.singleton_append]
  | case2 => cases h
  | case3 done text _ =>
    cases h
    obtain ⟨p, hp, heq⟩ := exists_blanks text
    exact ⟨[], [], p, .nil, hp, heq, (List.append_nil _).symm⟩

theorem selectorBracket_append {t q rest : List Char} {ss : List Selector}
    (h : MoreSelectors t ss) (hq : Blanks q) (first : Selector) :
    selectorBracket first (t ++ (q ++ ']' :: rest)) = .ok (selection (first :: ss), rest) := by
  have hread := selectors_append h hq rest [first]
  simp only [selectorBracket, hread, expect_cons (c := ']') rfl, List.reverse_cons,
    List.reverse_nil, List.nil_append, List.singleton_append, bind, Except.bind, pure, Except.pure]

theorem selectorBracket_skipBlank (first : Selector) (text : List Char) :
    selectorBracket first (skipBlank text) = selectorBracket first text := by
  rw [selectorBracket, selectors_skipBlank, selectorBracket]

theorem moreSelectors_of_selectorBracket {first : Selector} {text rest : List Char} {step : Step}
    (h : selectorBracket first text = .ok (step, rest)) :
    ∃ t ss q, MoreSelectors t ss ∧ Blanks q ∧ text = t ++ (q ++ ']' :: rest) ∧
      step = selection (first :: ss) := by
  obtain ⟨⟨ss, rest'⟩, hread, h⟩ := bind_eq_ok.mp h
  obtain ⟨rest'', hclose, h⟩ := bind_eq_ok.mp h
  cases h
  obtain ⟨t, new, q, ht, hq, rfl, rfl⟩ := moreSelectors_of_selectors hread
  obtain ⟨q', hq', rfl⟩ := exists_blanks_of_expect hclose
  exact ⟨t, new, q ++ q', ht, blanks_append hq hq', by rw [List.append_assoc], rfl⟩

theorem contentText_selection {depth : Nat} {s t : List Char} {first : Selector}
    {ss : List Selector} (hs : SelectorText s first) (ht : MoreSelectors t ss) :
    ContentText depth (s ++ t) (selection (first :: ss)) := by
  cases ss with
  | nil =>
    cases ht with
    | nil =>
      rw [List.append_nil]
      exact .selector hs
  | cons second ss => exact .union hs ht

theorem integer?_skipBlank {p : List Char} (hp : Blanks p) (text : List Char) :
    integer? (p ++ text) = integer? text := by
  rw [integer?, integer?, skipBlank_append hp]

theorem integer?_append_mark {p s text rest : List Char} {n : Option Int} {c : Char}
    (hp : Blanks p) (hs : BoundText s n) (h : skipBlank text = c :: rest)
    (hc : c = ':' ∨ c = ']') :
    ∃ rest', integer? (p ++ (s ++ text)) = .ok (n, rest') ∧ skipBlank rest' = c :: rest := by
  have hends : EndsOperand text := endsOperand_mark_of_skipBlank h (.inr hc)
  rw [integer?_skipBlank hp, ← h]
  refine integer?_append hs hends.endsName.startsWithDigit ?_
  rw [h]
  rintro _ ⟨⟩
  rcases hc with rfl | rfl <;> decide

/-- Behind its start a slice goes on with a colon. -/
theorem sliceBracket_append {s : List Char} {slice : Slice} (h : SliceText s slice) :
    ∃ b p t, s = b ++ (p ++ ':' :: t) ∧ BoundText b slice.start ∧ Blanks p ∧
      ∀ {r : List Char} (rest : List Char), Blanks r →
        sliceBracket slice.start (':' :: (t ++ (r ++ ']' :: rest))) = .ok (.slice slice, rest) := by
  cases h with
  | bounds hs hp hq ht =>
    refine ⟨_, _, _, rfl, hs, hp, fun rest hr => ?_⟩
    obtain ⟨rest', hstop, hskip⟩ :=
      integer?_append_mark hq ht (skipBlank_mark hr (c := ']') rfl rest) (.inr rfl)
    simp only [sliceBracket, expect_cons (c := ':') rfl, List.append_assoc, hstop, hskip, bind,
      Except.bind]
    rfl
  | stride hs hp hq ht hr hu hw hzero =>
    rename_i u w _ _ _
    refine ⟨_, _, _, rfl, hs, hp, @fun v rest hv => ?_⟩
    obtain ⟨rest', hstop, hskip⟩ := integer?_append_mark hq ht
      (skipBlank_mark hr (c := ':') rfl (u ++ (w ++ (v ++ ']' :: rest)))) (.inl rfl)
    obtain ⟨rest'', hstride, hskip'⟩ :=
      integer?_append_mark hu hw (skipBlank_mark hv (c := ']') rfl rest) (.inr rfl)
    have hclose : expect ']' rest'' = .ok rest := expect_of_skipBlank hskip'
    simp only [sliceBracket, expect_cons (c := ':') rfl, List.append_assoc, List.cons_append, hstop,
      hskip, hstride, hzero, hclose, if_false, bind, Except.bind, pure, Except.pure]

theorem sliceBracket_skipBlank {p : List Char} (hp : Blanks p) (start : Option Int)
    (text : List Char) : sliceBracket start (p ++ text) = sliceBracket start text := by
  rw [sliceBracket, sliceBracket, expect, expect, skipBlank_append hp]

theorem sliceText_of_sliceBracket {b text rest : List Char} {start : Option Int} {step : Step}
    (hb : BoundText b start) (h : sliceBracket start text = .ok (step, rest)) :
    ∃ s slice q, SliceText (b ++ s) slice ∧ Blanks q ∧ text = s ++ (q ++ ']' :: rest) ∧
      step = .slice slice := by
  obtain ⟨rest₁, hcolon, hread⟩ := bind_eq_ok.mp h
  obtain ⟨⟨stop, rest₂⟩, hstop, hend⟩ := bind_eq_ok.mp hread
  clear h hread
  obtain ⟨p, hp, rfl⟩ := exists_blanks_of_expect hcolon
  obtain ⟨q, t, hq, ht, rfl⟩ := boundText_of_integer? hstop
  simp only at hend
  split at hend
  · rename_i rest₃ hskip
    obtain ⟨r, hr, rfl⟩ := exists_blanks_of_skipBlank hskip
    obtain ⟨⟨stride, rest₄⟩, hstride, hend⟩ := bind_eq_ok.mp hend
    simp only at hend
    split at hend
    · cases hend
    · rename_i hzero
      obtain ⟨rest₅, hclose, hend⟩ := bind_eq_ok.mp hend
      cases hend
      obtain ⟨u, w, hu, hw, rfl⟩ := boundText_of_integer? hstride
      obtain ⟨v, hv, rfl⟩ := exists_blanks_of_expect hclose
      refine ⟨_, _, v, .stride hb hp hq ht hr hu hw hzero, hv, ?_, rfl⟩
      simp only [List.append_assoc, List.cons_append]
  · obtain ⟨rest₃, hclose, hend⟩ := bind_eq_ok.mp hend
    cases hend
    obtain ⟨r, hr, heq⟩ := exists_blanks_of_expect hclose
    obtain ⟨r', hr', rfl⟩ := exists_blanks_of_skipBlank heq
    refine ⟨_, _, r' ++ r, .bounds hb hp hq ht, blanks_append hr' hr, ?_, rfl⟩
    simp only [List.append_assoc, List.cons_append]

theorem bracket_skipBlank {inner : Option Inner} {p : List Char} (hp : Blanks p)
    (text : List Char) : bracket inner (p ++ text) = bracket inner text := by
  rw [bracket, bracket, skipBlank_append hp]

/-- A bracket that begins with a selector or with the start of a slice. -/
theorem bracket_cons {inner : Option Inner} {c : Char} (hblank : isBlank c = false)
    (hc : c ∉ ['*', '?', '$', ':', ']']) (text : List Char) :
    bracket inner (c :: text) =
      if startsInteger c then
        integer (c :: text) >>= fun r =>
          match skipBlank r.2 with
          | ':' :: rest => sliceBracket (some r.1) (':' :: rest)
          | rest => selectorBracket (.index r.1) rest
      else if isQuote c then
        quotedTail c [] text >>= fun r => selectorBracket (.name r.1) r.2
      else malformed .bracketStart (c :: text) := by
  unfold bracket
  rw [skipBlank_cons hblank]
  split
  case h_6 =>
    rename_i heq
    cases heq
    rfl
  case h_7 =>
    rename_i heq
    cases heq
  all_goals
    rename_i heq
    rw [(List.cons.inj heq).1] at hc
    exact absurd hc (by decide)

theorem bracket_startsInteger {inner : Option Inner} {c : Char} (hc : startsInteger c = true)
    {text rest : List Char} {n : Int} (h : integer (c :: text) = .ok (n, rest)) :
    bracket inner (c :: text) =
      match skipBlank rest with
      | ':' :: rest => sliceBracket (some n) (':' :: rest)
      | rest => selectorBracket (.index n) rest := by
  have hother : c ∉ ['*', '?', '$', ':', ']'] := by
    simp only [List.mem_cons, List.not_mem_nil, or_false]
    rintro (rfl | rfl | rfl | rfl | rfl) <;> cases hc
  rw [bracket_cons (isBlank_of_startsInteger hc) hother, if_pos hc, h]
  rfl

theorem bracket_isQuote {inner : Option Inner} {c : Char} (hc : isQuote c = true)
    {text rest : List Char} {name : String} (h : quotedTail c [] text = .ok (name, rest)) :
    bracket inner (c :: text) = selectorBracket (.name name) rest := by
  have hother : c ∉ ['*', '?', '$', ':', ']'] := by
    simp only [List.mem_cons, List.not_mem_nil, or_false]
    rintro (rfl | rfl | rfl | rfl | rfl) <;> cases hc
  have hinteger : startsInteger c ≠ true := by
    intro hinteger
    rw [isQuote_of_startsInteger hinteger] at hc
    cases hc
  rw [bracket_cons (isBlank_of_isQuote hc) hother, if_neg hinteger, if_pos hc, h]
  rfl

theorem bracket_selection {inner : Option Inner} {s t q : List Char} {first : Selector}
    {ss : List Selector} (hs : SelectorText s first) (ht : MoreSelectors t ss) (hq : Blanks q)
    (rest : List Char) :
    bracket inner (s ++ (t ++ (q ++ ']' :: rest))) = .ok (selection (first :: ss), rest) := by
  cases hs with
  | name hs =>
    obtain ⟨c, u, heq, hc, hread⟩ := quotedTail_append hs (t ++ (q ++ ']' :: rest))
    rw [heq, bracket_isQuote hc hread, selectorBracket_append ht hq]
  | index hs =>
    obtain ⟨t', q', ht', hq', hskip, d, u, heq, hd⟩ := ht.exists_skipBlank hq rest
    have hread := integer_append hs (ht.endsOperand hq rest).endsName.startsWithDigit
    obtain ⟨c, s, rfl, hc⟩ := hs.head
    rw [List.cons_append] at hread ⊢
    rw [bracket_startsInteger hc hread, hskip, ← selectorBracket_append ht' hq', heq]
    rcases hd with rfl | rfl <;> rfl

theorem bracket_slice {inner : Option Inner} {s q : List Char} {slice : Slice}
    (h : SliceText s slice) (hq : Blanks q) (rest : List Char) :
    bracket inner (s ++ (q ++ ']' :: rest)) = .ok (.slice slice, rest) := by
  obtain ⟨b, p, t, rfl, hb, hp, hread⟩ := sliceBracket_append h
  have hmark := skipBlank_mark hp (c := ':') rfl (t ++ (q ++ ']' :: rest))
  have hread := hread rest hq
  simp only [List.append_assoc, List.cons_append]
  generalize slice.start = start at hb hread
  cases hb with
  | none =>
    simp only [List.nil_append, bracket, hmark, hread]
  | some hs =>
    have hends := endsOperand_mark_of_skipBlank hmark (.inr (.inl rfl))
    have hinteger := integer_append hs hends.endsName.startsWithDigit
    obtain ⟨c, s, rfl, hc⟩ := hs.head
    rw [List.cons_append] at hinteger ⊢
    rw [bracket_startsInteger hc hinteger, hmark]
    exact hread

theorem bracket_filter {depth : Nat} {p s q : List Char} {c : Condition} (hp : Blanks p)
    (hs : DisjunctionText depth s c) (hq : Blanks q) (rest : List Char) :
    bracket (inner depth) ('?' :: (p ++ (s ++ (q ++ ']' :: rest)))) = .ok (.filter c, rest) := by
  have hskip := skipBlank_cons (c := '?') rfl (p ++ (s ++ (q ++ ']' :: rest)))
  have hread := disjunction_append_bracket hs hq rest
  rw [← disjunction_skipBlank hp] at hread
  simp only [bracket, hskip, hread, expect_cons (c := ']') rfl, bind, Except.bind, pure,
    Except.pure]

theorem bracket_path {within : Inner} {text rest : List Char} {path : Path}
    (h : within.path text = .ok (path, ']' :: rest)) :
    bracket (some within) ('$' :: text) = .ok (.dynamic (.root :: path), rest) := by
  have hskip := skipBlank_cons (c := '$') rfl text
  simp only [bracket, hskip, h, expect_cons (c := ']') rfl, bind, Except.bind, pure, Except.pure]

theorem bracket_wildcard {inner : Option Inner} {q : List Char} (hq : Blanks q)
    (rest : List Char) : bracket inner ('*' :: (q ++ ']' :: rest)) = .ok (.wildcard, rest) := by
  have hskip := skipBlank_cons (c := '*') rfl (q ++ ']' :: rest)
  have hclose := expect_of_skipBlank (skipBlank_mark hq (c := ']') rfl rest)
  simp only [bracket, hskip, hclose, bind, Except.bind, pure, Except.pure]

/-- An integer begins a slice or a list of selectors. -/
theorem contentText_of_integer {depth : Nat} {text rest : List Char} {step : Step}
    (h : (integer text >>= fun r =>
      match skipBlank r.2 with
      | ':' :: rest => sliceBracket (some r.1) (':' :: rest)
      | rest => selectorBracket (.index r.1) rest) = .ok (step, rest)) :
    ∃ s q, ContentText depth s step ∧ Blanks q ∧ text = s ++ (q ++ ']' :: rest) := by
  obtain ⟨⟨n, rest'⟩, hinteger, hend⟩ := bind_eq_ok.mp h
  clear h
  obtain ⟨s, hs, rfl⟩ := integerText_of_integer hinteger
  obtain ⟨p, hp, hskip⟩ := exists_blanks rest'
  simp only at hend
  split at hend
  · rename_i hcolon
    rw [← hcolon, ← sliceBracket_skipBlank hp, ← hskip] at hend
    obtain ⟨t, slice, q, ht, hq, rfl, rfl⟩ := sliceText_of_sliceBracket (.some hs) hend
    exact ⟨s ++ t, q, .slice ht, hq, by rw [List.append_assoc]⟩
  · obtain ⟨t, ss, q, ht, hq, hrest, rfl⟩ := moreSelectors_of_selectorBracket hend
    obtain ⟨t', q', ht', hq', hmore⟩ := ht.blanks_append hp hq
    refine ⟨s ++ t', q', contentText_selection (.index hs) ht', hq', ?_⟩
    rw [hskip, hrest, List.append_assoc, ← List.append_assoc t, ← List.append_assoc p, hmore]
    simp only [List.append_assoc]

theorem contentText_of_quotedTail {depth : Nat} {c : Char} (hc : isQuote c = true)
    {text rest : List Char} {step : Step}
    (h : (quotedTail c [] text >>= fun r => selectorBracket (.name r.1) r.2) = .ok (step, rest)) :
    ∃ s q, ContentText depth s step ∧ Blanks q ∧ c :: text = s ++ (q ++ ']' :: rest) := by
  obtain ⟨⟨name, rest'⟩, hread, h⟩ := bind_eq_ok.mp h
  obtain ⟨s, hs, heq⟩ := quotedText_of_quotedTail hc hread
  obtain ⟨t, ss, q, ht, hq, rfl, rfl⟩ := moreSelectors_of_selectorBracket h
  exact ⟨s ++ t, q, contentText_selection (.name hs) ht, hq, by rw [heq, List.append_assoc]⟩

theorem contentText_of_condition {inner : Option Inner} {depth : Nat}
    (hcondition : ReadsOnly (disjunction inner) (DisjunctionText depth))
    {text rest : List Char} {step : Step}
    (h : (disjunction inner text >>= fun r => expect ']' r.2 >>= fun rest =>
      .ok (Step.filter r.1, rest)) = .ok (step, rest)) :
    ∃ s q, ContentText depth s step ∧ Blanks q ∧ '?' :: text = s ++ (q ++ ']' :: rest) := by
  obtain ⟨⟨c, rest'⟩, hread, h⟩ := bind_eq_ok.mp h
  obtain ⟨rest'', hclose, h⟩ := bind_eq_ok.mp h
  cases h
  obtain ⟨p, s, q, hp, hs, hq, rfl⟩ := hcondition _ _ _ hread
  obtain ⟨q', hq', rfl⟩ := exists_blanks_of_expect hclose
  refine ⟨_, q ++ q', .filter hp hs, blanks_append hq hq', ?_⟩
  simp only [List.append_assoc, List.cons_append]

/-- What a bracket holds derives, given that the paths in it do. -/
theorem contentText_of_bracket {inner : Option Inner} {depth : Nat}
    (hcondition : ReadsOnly (disjunction inner) (DisjunctionText depth))
    (hpath : ∀ within, inner = some within → ∀ text path rest,
      within.path text = .ok (path, rest) →
        ∃ s, ContentText depth ('$' :: s) (.dynamic (.root :: path)) ∧ text = s ++ rest)
    {text rest : List Char} {step : Step} (h : bracket inner text = .ok (step, rest)) :
    ∃ p s q, Blanks p ∧ ContentText depth s step ∧ Blanks q ∧
      text = p ++ (s ++ (q ++ ']' :: rest)) := by
  unfold bracket at h
  split at h
  · rename_i rest' hb
    obtain ⟨p, hp, rfl⟩ := exists_blanks_of_skipBlank hb
    obtain ⟨rest'', hclose, h⟩ := bind_eq_ok.mp h
    cases h
    obtain ⟨q, hq, rfl⟩ := exists_blanks_of_expect hclose
    exact ⟨p, ['*'], q, hp, .wildcard, hq, rfl⟩
  · rename_i rest' hb
    obtain ⟨p, hp, rfl⟩ := exists_blanks_of_skipBlank hb
    obtain ⟨s, q, hs, hq, heq⟩ := contentText_of_condition hcondition h
    exact ⟨p, s, q, hp, hs, hq, by rw [heq]⟩
  · rename_i rest' hb
    obtain ⟨p, hp, rfl⟩ := exists_blanks_of_skipBlank hb
    split at h
    · cases h
    · rename_i within
      obtain ⟨⟨path, rest''⟩, hread, h⟩ := bind_eq_ok.mp h
      obtain ⟨rest₃, hclose, h⟩ := bind_eq_ok.mp h
      cases h
      obtain ⟨s, hs, rfl⟩ := hpath within rfl _ _ _ hread
      obtain ⟨q, hq, rfl⟩ := exists_blanks_of_expect hclose
      exact ⟨p, '$' :: s, q, hp, hs, hq, rfl⟩
  · rename_i rest' hb
    obtain ⟨p, hp, rfl⟩ := exists_blanks_of_skipBlank hb
    obtain ⟨s, slice, q, hs, hq, heq, rfl⟩ := sliceText_of_sliceBracket .none h
    exact ⟨p, s, q, hp, .slice hs, hq, by rw [heq]⟩
  · cases h
  · rename_i c rest' _ _ _ _ _ hb
    obtain ⟨p, hp, rfl⟩ := exists_blanks_of_skipBlank hb
    split at h
    · obtain ⟨s, q, hs, hq, heq⟩ := contentText_of_integer h
      exact ⟨p, s, q, hp, hs, hq, by rw [heq]⟩
    · split at h
      · rename_i hc
        obtain ⟨s, q, hs, hq, heq⟩ := contentText_of_quotedTail hc h
        exact ⟨p, s, q, hp, hs, hq, by rw [heq]⟩
      · cases h
  · cases h

end JsonQuery.Path
