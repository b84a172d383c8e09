import JsonQuery.Proofs.Path.Bracket

/-!
Queries are read by their grammar: a text is accepted with a path exactly if it derives this path
within the depth that the reader allows.
-/

namespace JsonQuery.Path

open Text (skipBlank isBlank bind_eq_ok skipBlank_cons)

theorem afterDot_skipBlank {p : List Char} (hp : Blanks p) (text : List Char) :
    afterDot (p ++ text) = afterDot text := by
  rw [afterDot, afterDot, skipBlank_append hp]

theorem afterDots_skipBlank {inner : Option Inner} {p : List Char} (hp : Blanks p)
    (text : List Char) : afterDots inner (p ++ text) = afterDots inner text := by
  rw [afterDots, afterDots, skipBlank_append hp]

theorem MemberText.head?_append_ne {s : List Char} {step : Step} (h : MemberText s step)
    {p : List Char} (hp : Blanks p) (rest : List Char) : (p ++ (s ++ rest)).head? ≠ some '.' := by
  cases h with
  | name hs =>
    obtain ⟨c, t, rfl, hc⟩ := hs.head
    refine Path.head?_append_ne hp (by decide) ?_
    rintro rfl
    exact absurd hc (by decide)
  | wildcard => exact Path.head?_append_ne hp (by decide) (by decide)

theorem afterDot_append {s rest : List Char} {step : Step} (h : MemberText s step)
    (hr : EndsName rest) : afterDot (s ++ rest) = .ok (step, rest) := by
  cases h with
  | name hs =>
    unfold afterDot
    rw [hs.skipBlank_append]
    split
    · rename_i heq
      exact absurd heq (hs.append_ne_cons (by decide) _ _)
    · rename_i heq
      exact absurd heq (hs.append_ne_cons (by decide) _ _)
    · rw [memberName_append hs hr]
      rfl
  | wildcard => rfl

theorem memberText_of_afterDot {text rest : List Char} {step : Step}
    (h : afterDot text = .ok (step, rest)) :
    ∃ p s, Blanks p ∧ MemberText s step ∧ text = p ++ (s ++ rest) := by
  unfold afterDot at h
  split at h
  · cases h
  · rename_i hb
    obtain ⟨p, hp, rfl⟩ := exists_blanks_of_skipBlank hb
    cases h
    exact ⟨p, ['*'], hp, .wildcard, rfl⟩
  · obtain ⟨p, hp, hskip⟩ := exists_blanks text
    obtain ⟨⟨name, rest'⟩, hread, h⟩ := bind_eq_ok.mp h
    cases h
    obtain ⟨s, hs, heq⟩ := nameText_of_memberName hread
    exact ⟨p, s, hp, .name hs, by rw [← heq, ← hskip]⟩

theorem afterDots_append {inner : Option Inner} {s rest : List Char} {step : Step}
    (h : MemberText s step) (hr : EndsName rest) :
    afterDots inner (s ++ rest) = .ok (step, rest) := by
  cases h with
  | name hs =>
    unfold afterDots
    rw [hs.skipBlank_append]
    split
    · rename_i heq
      exact absurd heq (hs.append_ne_cons (by decide) _ _)
    · rename_i heq
      exact absurd heq (hs.append_ne_cons (by decide) _ _)
    · rw [memberName_append hs hr]
      rfl
  | wildcard => rfl

theorem afterDots_bracket (inner : Option Inner) (text : List Char) :
    afterDots inner ('[' :: text) = bracket inner text := by
  have hskip := skipBlank_cons (c := '[') rfl text
  simp only [afterDots, hskip]

section Steps

variable {inner : Option Inner} {enclosed : Bool}

theorem steps_eq (done : Path) (text : List Char) :
    steps inner enclosed done text =
      match skipBlank text with
      | [] => if enclosed then malformed (.missing ']') [] else .ok (done.reverse, [])
      | '.' :: '.' :: rest =>
        afterDots inner rest >>= fun r => steps inner enclosed (r.1 :: .descent :: done) r.2
      | '.' :: rest => afterDot rest >>= fun r => steps inner enclosed (r.1 :: done) r.2
      | '[' :: rest => bracket inner rest >>= fun r => steps inner enclosed (r.1 :: done) r.2
      | c :: rest =>
        if enclosed ∧ c = ']' then .ok (done.reverse, c :: rest)
        else malformed (.unexpected .step) (c :: rest) := by
  rw [steps.eq_def]
  split
  · rename_i h
    simp only [h]
  · rename_i h
    simp only [h]
    split <;> simp_all [bind, Except.bind]
  · rename_i h
    simp only [h]
    split <;> simp_all [bind, Except.bind]
  · rename_i h
    simp only [h]
    split <;> simp_all [bind, Except.bind]
  · rename_i h
    simp only [h]

end Steps

/-- What may stand behind steps: the bracket that encloses them, or nothing. -/
def EndsSteps (enclosed : Bool) (rest : List Char) : Prop :=
  if enclosed then (skipBlank rest).head? = some ']' else skipBlank rest = []

theorem EndsSteps.endsName {enclosed : Bool} {rest : List Char} (h : EndsSteps enclosed rest) :
    EndsName rest := by
  refine endsName_of_skipBlank fun c hc => ?_
  unfold EndsSteps at h
  split at h
  · rw [h] at hc
    cases hc
    decide
  · rw [h] at hc
    cases hc

theorem steps_of_ends {inner : Option Inner} {enclosed : Bool} {rest : List Char}
    (h : EndsSteps enclosed rest) (done : Path) :
    steps inner enclosed done rest = .ok (done.reverse, skipBlank rest) := by
  rw [steps_eq]
  unfold EndsSteps at h
  split at h
  · rename_i henclosed
    obtain ⟨t, ht⟩ := List.head?_eq_some_iff.mp h
    rw [ht]
    exact if_pos ⟨henclosed, rfl⟩
  · rename_i henclosed
    rw [h]
    exact if_neg henclosed

theorem steps_skipBlank {inner : Option Inner} {enclosed : Bool} {p : List Char} (hp : Blanks p)
    (done : Path) (text : List Char) :
    steps inner enclosed done (p ++ text) = steps inner enclosed done text := by
  rw [steps_eq, skipBlank_append hp, ← steps_eq]

theorem memberText_of_afterDots {inner : Option Inner} {text rest : List Char} {step : Step}
    (h : afterDots inner text = .ok (step, rest)) :
    ∃ p t, Blanks p ∧ text = p ++ t ∧
      ((∃ s, MemberText s step ∧ t = s ++ rest) ∨
        ∃ u, t = '[' :: u ∧ bracket inner u = .ok (step, rest)) := by
  obtain ⟨p, hp, hskip⟩ := exists_blanks text
  refine ⟨p, skipBlank text, hp, hskip, ?_⟩
  unfold afterDots at h
  split at h
  · rename_i hb
    cases h
    exact .inl ⟨['*'], .wildcard, hb⟩
  · rename_i hb
    exact .inr ⟨_, hb, h⟩
  · obtain ⟨⟨name, rest'⟩, hread, h⟩ := bind_eq_ok.mp h
    cases h
    obtain ⟨s, hs, heq⟩ := nameText_of_memberName hread
    exact .inl ⟨s, .name hs, heq⟩

/-- The reader of brackets gives what the bracket before it derives. -/
def BracketsDerive (inner : Option Inner) (depth : Nat) : Prop :=
  ∀ text step rest, bracket inner text = .ok (step, rest) →
    ∃ s, BracketText depth ('[' :: s) step ∧ text = s ++ rest

theorem stepText_of_afterDots {inner : Option Inner} {depth : Nat}
    (hbracket : BracketsDerive inner depth) {text rest : List Char} {step : Step}
    (h : afterDots inner text = .ok (step, rest)) :
    ∃ s, StepText depth ('.' :: '.' :: s) [.descent, step] ∧ text = s ++ rest := by
  obtain ⟨p, t, hp, rfl, ⟨s, hs, rfl⟩ | ⟨u, rfl, hu⟩⟩ := memberText_of_afterDots h
  · exact ⟨p ++ s, .dots hp hs, (List.append_assoc _ _ _).symm⟩
  · obtain ⟨s, hs, rfl⟩ := hbracket _ _ _ hu
    exact ⟨p ++ '[' :: s, .dotsBracket hp hs, by rw [List.append_assoc, List.cons_append]⟩

theorem stepText_of_afterDot (depth : Nat) {text rest : List Char} {step : Step}
    (h : afterDot text = .ok (step, rest)) :
    ∃ s, StepText depth ('.' :: s) [step] ∧ text = s ++ rest := by
  obtain ⟨p, s, hp, hs, rfl⟩ := memberText_of_afterDot h
  exact ⟨p ++ s, .dot hp hs, (List.append_assoc _ _ _).symm⟩

/-- Steps that nothing encloses are read to the end of the text. -/
theorem stepsText_of_steps {inner : Option Inner} {depth : Nat}
    (hbracket : BracketsDerive inner depth) {enclosed : Bool} {done path : Path}
    {text rest : List Char} (h : steps inner enclosed done text = .ok (path, rest)) :
    ∃ s new, StepsText depth s new ∧ text = s ++ rest ∧ path = done.reverse ++ new ∧
      (enclosed = false → rest = []) := by
  fun_induction steps inner enclosed done text with
  | case1 => cases h
  | case2 done text hb _ =>
    cases h
    obtain ⟨p, hp, rfl⟩ := exists_blanks_of_skipBlank hb
    exact ⟨p, [], .blanks hp, rfl, (List.append_nil _).symm, fun _ => rfl⟩
  | case3 done text rest₁ hb step rest₂ hread ih =>
    obtain ⟨p, hp, rfl⟩ := exists_blanks_of_skipBlank hb
    obtain ⟨t, new, ht, rfl, rfl, hend⟩ := ih h
    obtain ⟨s, hs, rfl⟩ := stepText_of_afterDots hbracket hread
    refine ⟨_, _, .step hp hs ht, ?_, ?_, hend⟩
    · simp only [List.append_assoc, List.cons_append]
    · simp only [List.reverse_cons, List.append_assoc, List.cons_append, List.nil_append]
  | case4 => cases h
  | case5 done text rest₁ _ hb step rest₂ hread ih =>
    obtain ⟨p, hp, rfl⟩ := exists_blanks_of_skipBlank hb
    obtain ⟨t, new, ht, rfl, rfl, hend⟩ := ih h
    obtain ⟨s, hs, rfl⟩ := stepText_of_afterDot depth hread
    refine ⟨_, _, .step hp hs ht, ?_, ?_, hend⟩
    · simp only [List.append_assoc, List.cons_append]
    · rw [List.reverse_cons, List.append_assoc]
  | case6 => cases h
  | case7 done text rest₁ hb step rest₂ hread ih =>
    obtain ⟨p, hp, rfl⟩ := exists_blanks_of_skipBlank hb
    obtain ⟨t, new, ht, rfl, rfl, hend⟩ := ih h
    obtain ⟨s, hs, rfl⟩ := hbracket _ _ _ hread
    refine ⟨_, _, .step hp (.bracket hs) ht, ?_, ?_, hend⟩
    · simp only [List.append_assoc, List.cons_append]
    · rw [List.reverse_cons, List.append_assoc]
  | case8 => cases h
  | case9 done text c rest₁ _ _ _ hb henclosed =>
    cases h
    obtain ⟨p, hp, rfl⟩ := exists_blanks_of_skipBlank hb
    refine ⟨p, [], .blanks hp, rfl, (List.append_nil _).symm, fun hfalse => ?_⟩
    rw [hfalse] at henclosed
    cases henclosed.1
  | case10 => cases h

theorem bracketText_of_content {inner : Option Inner} {depth : Nat}
    (h : ∀ within, inner = some within → ∀ text path rest,
      within.path text = .ok (path, rest) →
        ∃ s, ContentText depth ('$' :: s) (.dynamic (.root :: path)) ∧ text = s ++ rest)
    (hcondition : ReadsOnly (disjunction inner) (DisjunctionText depth)) :
    BracketsDerive inner depth := by
  intro text step rest hread
  obtain ⟨p, s, q, hp, hs, hq, rfl⟩ := contentText_of_bracket hcondition h hread
  refine ⟨_, .mk hp hs hq, ?_⟩
  simp only [List.append_assoc, List.cons_append, List.nil_append]

theorem bracketsDerive (depth : Nat) : BracketsDerive (inner depth) depth := by
  induction depth with
  | zero =>
    refine bracketText_of_content ?_ (readsOnly_disjunction (readsOnly_unary 0))
    rintro within ⟨⟩
  | succ depth ih =>
    refine bracketText_of_content ?_ (readsOnly_disjunction (readsOnly_unary (depth + 1)))
    rintro within ⟨⟩ text path rest hread
    obtain ⟨s, new, hs, rfl, rfl, -⟩ := stepsText_of_steps ih hread
    exact ⟨s, .path hs, rfl⟩

theorem StepText.head {depth : Nat} {s : List Char} {path : Path} (h : StepText depth s path) :
    ∃ c t, s = c :: t ∧ (c = '.' ∨ c = '[') := by
  cases h with
  | dot _ _ => exact ⟨_, _, rfl, .inl rfl⟩
  | dots _ _ => exact ⟨_, _, rfl, .inl rfl⟩
  | dotsBracket _ _ => exact ⟨_, _, rfl, .inl rfl⟩
  | bracket hs =>
    cases hs with
    | mk _ _ _ => exact ⟨_, _, rfl, .inr rfl⟩

/-- Steps end the name before them, and so does what stands behind them. -/
theorem StepsText.endsName {depth : Nat} {s rest : List Char} {path : Path} {enclosed : Bool}
    (h : StepsText depth s path) (hr : EndsSteps enclosed rest) : EndsName (s ++ rest) := by
  refine endsName_of_skipBlank ?_
  cases h with
  | blanks hp =>
    have hrest : EndsSteps enclosed (skipBlank rest) := by
      rwa [EndsSteps, Text.skipBlank_skipBlank]
    rw [skipBlank_append hp]
    exact hrest.endsName
  | step hp hs _ =>
    obtain ⟨c, t, rfl, hc⟩ := hs.head
    rw [List.append_assoc, List.append_assoc, List.cons_append, skipBlank_append hp]
    rcases hc with rfl | rfl
    · rw [skipBlank_cons rfl]
      rintro _ ⟨⟩
      decide
    · rw [skipBlank_cons rfl]
      rintro _ ⟨⟩
      decide

theorem steps_of_dot {inner : Option Inner} {enclosed : Bool} {p text rest : List Char}
    {step : Step} (hp : Blanks p) (hne : text.head? ≠ some '.')
    (h : afterDot text = .ok (step, rest)) (done : Path) :
    steps inner enclosed done (p ++ '.' :: text) = steps inner enclosed (step :: done) rest := by
  rw [steps_eq, skipBlank_mark hp rfl]
  split
  · rename_i heq
    cases heq
  · rename_i heq
    cases heq
    exact absurd rfl hne
  · rename_i heq
    cases heq
    rw [h]
    rfl
  · rename_i heq
    cases heq
  · rename_i hother _ heq
    exact absurd (List.cons.inj heq).1.symm hother

theorem steps_of_dots {inner : Option Inner} {p text rest : List Char} {step : Step}
    (enclosed : Bool) (hp : Blanks p) (h : afterDots inner text = .ok (step, rest)) (done : Path) :
    steps inner enclosed done (p ++ '.' :: '.' :: text) =
      steps inner enclosed (step :: .descent :: done) rest := by
  rw [steps_eq, skipBlank_mark hp rfl]
  simp only [h]
  rfl

theorem steps_of_bracket {inner : Option Inner} {enclosed : Bool} {p text rest : List Char}
    {step : Step} (hp : Blanks p) (h : bracket inner text = .ok (step, rest)) (done : Path) :
    steps inner enclosed done (p ++ '[' :: text) = steps inner enclosed (step :: done) rest := by
  rw [steps_eq, skipBlank_mark hp rfl]
  simp only [h]
  rfl

mutual

theorem content_append : {depth : Nat} → {s : List Char} → {step : Step} →
    ContentText depth s step → ∀ {q : List Char} (rest : List Char), Blanks q →
      bracket (inner depth) (s ++ (q ++ ']' :: rest)) = .ok (step, rest)
  | _, _, _, .wildcard, _, rest, hq => bracket_wildcard hq rest
  | _, _, _, .filter hp hs, _, rest, hq => by
    rw [List.cons_append, List.append_assoc]
    exact bracket_filter hp hs hq rest
  | _, _, _, .path hs, q, rest, hq => by
    have hmark := skipBlank_mark hq (c := ']') rfl rest
    have hends : EndsSteps true (q ++ ']' :: rest) := congrArg List.head? hmark
    have hread := steps_append hs hends []
    rw [hmark] at hread
    exact bracket_path hread
  | _, _, _, .slice hs, _, rest, hq => bracket_slice hs hq rest
  | _, _, _, .selector hs, _, rest, hq => bracket_selection hs .nil hq rest
  | _, _, _, .union hs ht, _, rest, hq => by
    rw [List.append_assoc]
    exact bracket_selection hs ht hq rest

theorem bracket_append : {depth : Nat} → {s : List Char} → {step : Step} →
    BracketText depth s step → ∀ rest : List Char,
      ∃ t, s = '[' :: t ∧ bracket (inner depth) (t ++ rest) = .ok (step, rest)
  | _, _, _, .mk hp hs hq, rest => by
    refine ⟨_, rfl, ?_⟩
    simp only [List.append_assoc, List.cons_append, List.nil_append]
    rw [bracket_skipBlank hp, content_append hs rest hq]

theorem step_append : {depth : Nat} → {s : List Char} → {path : Path} → StepText depth s path →
    ∀ {enclosed : Bool} {p rest : List Char} (done : Path), Blanks p → EndsName rest →
      steps (inner depth) enclosed done (p ++ (s ++ rest)) =
        steps (inner depth) enclosed (path.reverse ++ done) rest
  | _, _, _, .dot hp' hs, _, p, rest, done, hp, hr => by
    rw [List.cons_append, List.append_assoc]
    exact steps_of_dot hp (hs.head?_append_ne hp' rest)
      (by rw [afterDot_skipBlank hp', afterDot_append hs hr]) done
  | _, _, _, .dots hp' hs, _, p, rest, done, hp, hr => by
    simp only [List.cons_append, List.append_assoc]
    exact steps_of_dots _ hp (by rw [afterDots_skipBlank hp', afterDots_append hs hr]) done
  | _, _, _, .dotsBracket hp' hs, _, p, rest, done, hp, _ => by
    obtain ⟨t, rfl, hread⟩ := bracket_append hs rest
    simp only [List.cons_append, List.append_assoc]
    refine steps_of_dots _ hp ?_ done
    rw [afterDots_skipBlank hp', afterDots_bracket, hread]
  | _, _, _, .bracket hs, _, p, rest, done, hp, _ => by
    obtain ⟨t, rfl, hread⟩ := bracket_append hs rest
    exact steps_of_bracket hp hread done

theorem steps_append : {depth : Nat} → {s : List Char} → {path : Path} → StepsText depth s path →
    ∀ {enclosed : Bool} {rest : List Char}, EndsSteps enclosed rest → ∀ done : Path,
      steps (inner depth) enclosed done (s ++ rest) =
        .ok (done.reverse ++ path, skipBlank rest)
  | _, _, _, .blanks hp, _, _, hr, done => by
    rw [steps_skipBlank hp, steps_of_ends hr, List.append_nil]
  | _, _, _, .step hp hs ht, _, rest, hr, done => by
    rw [List.append_assoc, List.append_assoc, step_append hs done hp (ht.endsName hr),
      steps_append ht hr, List.reverse_append, List.reverse_reverse, List.append_assoc]

end

theorem parseWithin_eq_ok_iff {depth : Nat} {query : List Char} {path : Path} :
    parseWithin depth query = .ok path ↔ QueryText depth query path := by
  constructor
  · intro h
    unfold parseWithin at h
    split at h
    · rename_i rest hb
      obtain ⟨p, hp, rfl⟩ := exists_blanks_of_skipBlank hb
      obtain ⟨⟨path', rest'⟩, hread, h⟩ := bind_eq_ok.mp h
      cases h
      obtain ⟨s, new, hs, rfl, rfl, hend⟩ := stepsText_of_steps (bracketsDerive depth) hread
      rw [hend rfl, List.append_nil]
      exact .mk hp hs
    · cases h
  · rintro ⟨hp, hs⟩
    have hends : EndsSteps false [] := rfl
    have hread := steps_append hs hends []
    rw [List.append_nil] at hread
    simp only [parseWithin, skipBlank_mark hp (c := '$') rfl, hread]
    rfl

/-- A query is accepted with a path exactly if its text derives that path, with parentheses,
negations and dynamic steps at most 64 deep. -/
theorem parse_eq_ok_iff_queryText {query : List Char} {path : Path} :
    parse query = .ok path ↔ QueryText maxDepth query path :=
  parseWithin_eq_ok_iff

theorem BracketText.of_content {depth : Nat} {s : List Char} {step : Step}
    (h : ContentText depth s step) : BracketText depth ('[' :: (s ++ [']'])) step :=
  .mk blanks_nil h blanks_nil

theorem StepsText.of_bracket {depth : Nat} {s : List Char} {step : Step}
    (h : BracketText depth s step) : StepsText depth s [step] := by
  have hsteps := StepsText.step blanks_nil (.bracket h) (.blanks blanks_nil)
  rwa [List.nil_append, List.append_nil, List.append_nil] at hsteps

/-- A query of one step, in brackets and without blanks. -/
theorem parse_bracket {s : List Char} {step : Step} (h : ContentText maxDepth s step) :
    parse ('$' :: '[' :: (s ++ [']'])) = .ok [.root, step] :=
  parse_eq_ok_iff_queryText.mpr (.mk blanks_nil (.of_bracket (.of_content h)))

end JsonQuery.Path
