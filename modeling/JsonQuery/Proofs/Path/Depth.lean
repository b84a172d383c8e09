import JsonQuery.Proofs.Path.Accepted
import JsonQuery.Proofs.Path.Canonical
import JsonQuery.Proofs.Path.Reading

/-!
The canonical text of a path is read back, unless it nests more deeply than the reader allows; then
this depth is what the reader reports. The text may nest more deeply than a query for the path,
since it has parentheses behind each negation.
-/

namespace JsonQuery.Path

open Text (skipBlank bind_eq_ok skipBlank_cons Progress)

/-- A text is refused because it nests too deeply. -/
def TooDeep {α : Type} (result : Except Fault α) : Prop :=
  ∃ rest, result = malformed .tooDeep rest

theorem TooDeep.bind {α β : Type} {result : Except Fault α} (h : TooDeep result)
    (next : α → Except Fault β) : TooDeep (result >>= next) := by
  obtain ⟨rest, rfl⟩ := h
  exact ⟨rest, rfl⟩

theorem chain_tooDeep {mark : Char} {join : Condition → Condition → Condition}
    {read : Reader Condition} {progress : Progress read} {text rest : List Char}
    (h : skipBlank text = mark :: mark :: rest) (hr : TooDeep (read rest)) (left : Condition) :
    TooDeep (chain mark join read progress left text) := by
  rw [chain_of_mark h]
  exact hr.bind _

theorem disjunction_tooDeep {inner : Option Inner} {text : List Char}
    (h : TooDeep (unary inner text)) : TooDeep (disjunction inner text) :=
  (h.bind _).bind _

theorem unary_group_tooDeep {depth : Nat} {text : List Char}
    (h : ∀ within, depth = within + 1 → TooDeep (disjunction (inner within) text)) :
    TooDeep (unary (inner depth) ('(' :: text)) := by
  have hskip : skipBlank ('(' :: text) = '(' :: text := skipBlank_cons rfl text
  cases depth with
  | zero =>
    refine ⟨text, ?_⟩
    simp only [unary, hskip, inner]
  | succ within =>
    simp only [unary, hskip, inner]
    exact (h within rfl).bind _

theorem unary_not_tooDeep {depth : Nat} {text : List Char}
    (h : ∀ within, depth = within + 1 → TooDeep (unary (inner within) ('(' :: text))) :
    TooDeep (unary (inner depth) ('!' :: '(' :: text)) := by
  have hskip : skipBlank ('!' :: '(' :: text) = '!' :: '(' :: text := skipBlank_cons rfl _
  cases depth with
  | zero =>
    refine ⟨'(' :: text, ?_⟩
    simp only [unary, hskip, inner]
    rfl
  | succ within =>
    simp only [unary, hskip, inner]
    exact (h within rfl).bind _

theorem unary_space_tooDeep {inner : Option Inner} {text : List Char}
    (h : TooDeep (unary inner text)) : TooDeep (unary inner (' ' :: text)) := by
  rwa [← List.singleton_append, unary_skipBlank blanks_space]

theorem unary_text_tooDeep {c : Condition} (depth : Nat) (h : c.WellFormed)
    (hdepth : depth < c.nesting) (rest : List Char) :
    TooDeep (unary (inner depth) (c.text ++ rest)) := by
  induction c generalizing depth rest with
  | present r => cases hdepth
  | compare left comparison right => cases hdepth
  | and left right ihl ihr =>
    rw [Condition.nesting] at hdepth
    simp only [Condition.text, List.cons_append, List.append_assoc, List.nil_append]
    refine unary_group_tooDeep fun within hwithin => ?_
    -- the left side is read first: only where it fits is the right side reached
    by_cases hleft : within < left.nesting
    · exact disjunction_tooDeep (ihl within h.1 hleft _)
    · have hs := unaryText_text within h.1 (by omega)
      have hright := ihr within h.2 (by omega) (')' :: rest)
      have hmark : skipBlank (" && ".toList ++ (right.text ++ ')' :: rest)) =
        '&' :: '&' :: ' ' :: (right.text ++ ')' :: rest) := rfl
      obtain ⟨rest', hread, hskip⟩ :=
        conjunction_append (.unary hs) (endsCondition_of_skipBlank hmark (by decide))
      refine TooDeep.bind ?_ _
      rw [hread]
      exact chain_tooDeep (hskip.trans hmark) (unary_space_tooDeep hright) _
  | or left right ihl ihr =>
    rw [Condition.nesting] at hdepth
    simp only [Condition.text, List.cons_append, List.append_assoc, List.nil_append]
    refine unary_group_tooDeep fun within hwithin => ?_
    by_cases hleft : within < left.nesting
    · exact disjunction_tooDeep (ihl within h.1 hleft _)
    · have hs := unaryText_text within h.1 (by omega)
      have hright := ihr within h.2 (by omega) (')' :: rest)
      have hmark : skipBlank (" || ".toList ++ (right.text ++ ')' :: rest)) =
        '|' :: '|' :: ' ' :: (right.text ++ ')' :: rest) := rfl
      obtain ⟨rest', hread, hskip⟩ := disjunction_append (.conjunction (.unary hs))
        (endsCondition_of_skipBlank hmark (by decide)) (by rw [hmark]; simp)
      rw [hread]
      exact chain_tooDeep (hskip.trans hmark) ((unary_space_tooDeep hright).bind _) _
  | not inner ih =>
    rw [Condition.nesting] at hdepth
    simp only [Condition.text, List.cons_append, List.append_assoc, List.nil_append]
    refine unary_not_tooDeep fun outer houter => ?_
    refine unary_group_tooDeep fun within hwithin => ?_
    exact disjunction_tooDeep (ih within h (by omega) _)

theorem bracket_filter_tooDeep {inner : Option Inner} {text : List Char}
    (h : TooDeep (unary inner text)) : TooDeep (bracket inner ('?' :: text)) := by
  have hskip : skipBlank ('?' :: text) = '?' :: text := skipBlank_cons rfl text
  simp only [bracket, hskip]
  exact (disjunction_tooDeep h).bind _

theorem bracket_path_tooDeep {depth : Nat} {text : List Char}
    (h : ∀ within, depth = within + 1 → TooDeep (steps (inner within) true [] text)) :
    TooDeep (bracket (inner depth) ('$' :: text)) := by
  have hskip : skipBlank ('$' :: text) = '$' :: text := skipBlank_cons rfl text
  cases depth with
  | zero =>
    refine ⟨text, ?_⟩
    simp only [bracket, hskip, inner]
  | succ within =>
    simp only [bracket, hskip, inner]
    exact (h within rfl).bind _

theorem steps_bracket_tooDeep {inner : Option Inner} {text : List Char}
    (h : TooDeep (bracket inner text)) (enclosed : Bool) (done : Path) :
    TooDeep (steps inner enclosed done ('[' :: text)) := by
  rw [steps_eq, skipBlank_cons rfl]
  exact h.bind _

theorem steps_dots_tooDeep {inner : Option Inner} {text : List Char}
    (h : TooDeep (bracket inner text)) (enclosed : Bool) (done : Path) :
    TooDeep (steps inner enclosed done ('.' :: '.' :: '[' :: text)) := by
  rw [← afterDots_bracket] at h
  rw [steps_eq, skipBlank_cons rfl]
  exact h.bind _

mutual

theorem bracket_text_tooDeep (depth : Nat) : (step : Step) → StepWellFormed step →
    depth < stepNesting step → ∀ rest : List Char,
      ∃ t, stepText step = '[' :: t ∧ TooDeep (bracket (inner depth) (t ++ rest))
  | .filter c, h, hdepth, rest => by
    rw [stepNesting] at hdepth
    refine ⟨'?' :: '(' :: (c.text ++ ")]".toList), rfl, ?_⟩
    simp only [List.cons_append, List.append_assoc]
    refine bracket_filter_tooDeep (unary_group_tooDeep fun within hwithin => ?_)
    exact disjunction_tooDeep (unary_text_tooDeep within h (by omega) _)
  | .dynamic (.root :: path), h, hdepth, rest => by
    rw [stepNesting, nesting_root] at hdepth
    refine ⟨'$' :: (text path ++ [']']), rfl, ?_⟩
    rw [List.cons_append, List.append_assoc]
    refine bracket_path_tooDeep fun within hwithin => ?_
    exact steps_text_tooDeep within path h.1 h.2 (by omega) _ _ _
  | .root, _, hdepth, _ => by cases hdepth
  | .select _, _, hdepth, _ => by cases hdepth
  | .wildcard, _, hdepth, _ => by cases hdepth
  | .descent, _, hdepth, _ => by cases hdepth
  | .slice _, _, hdepth, _ => by cases hdepth
  | .union _, _, hdepth, _ => by cases hdepth

theorem steps_text_tooDeep (depth : Nat) : (path : Path) → Arranged path →
    StepsWellFormed path → depth < nesting path → ∀ (enclosed : Bool) (done : Path)
      (rest : List Char), TooDeep (steps (inner depth) enclosed done (text path ++ rest))
  | [], _, _, hdepth, _, _, _ => by cases hdepth
  | step :: path, harranged, h, hdepth, enclosed, done, text' => by
    rcases harranged.cons_cases with ⟨hpicks, hrest⟩ | ⟨rfl, next, rest, rfl, hpicks, hrest⟩
    · rw [nesting] at hdepth
      by_cases hstep : depth < stepNesting step
      · obtain ⟨t, htext, hread⟩ := bracket_text_tooDeep depth step h.1 hstep (text path ++ text')
        rw [text, htext, List.append_assoc]
        exact steps_bracket_tooDeep hread enclosed done
      · have hs := bracketText_text depth step hpicks h.1 (by omega)
        obtain ⟨t, htext, hread⟩ := bracket_append hs (text path ++ text')
        have hpath := steps_text_tooDeep depth path hrest h.2 (by omega) enclosed
          (stepAsWritten step :: done) text'
        rw [← steps_of_bracket (p := []) blanks_nil hread] at hpath
        rwa [text, htext, List.append_assoc]
    · rw [nesting_descent, nesting] at hdepth
      rw [text, text, stepText]
      by_cases hstep : depth < stepNesting next
      · obtain ⟨t, htext, hread⟩ :=
          bracket_text_tooDeep depth next h.2.1 hstep (text rest ++ text')
        rw [htext, List.append_assoc, List.append_assoc]
        exact steps_dots_tooDeep hread enclosed done
      · have hs := bracketText_text depth next hpicks h.2.1 (by omega)
        obtain ⟨t, htext, hread⟩ := bracket_append hs (text rest ++ text')
        rw [← afterDots_bracket] at hread
        have hpath := steps_text_tooDeep depth rest hrest h.2.2 (by omega) enclosed
          (stepAsWritten next :: .descent :: done) text'
        rw [← steps_of_dots (p := []) enclosed blanks_nil hread] at hpath
        rwa [htext, List.append_assoc, List.append_assoc]

end

theorem parseWithin_text {depth : Nat} {path : Path} (h : WellFormed path)
    (hdepth : nesting path ≤ depth) : parseWithin depth (text path) = .ok (asWritten path) :=
  parseWithin_eq_ok_iff.mpr (queryText_text h hdepth)

theorem parseWithin_text_tooDeep {depth : Nat} {path : Path} (h : WellFormed path)
    (hdepth : depth < nesting path) : TooDeep (parseWithin depth (text path)) := by
  cases path with
  | nil => exact False.elim h
  | cons step path =>
    cases step with
    | root =>
      rw [nesting_root] at hdepth
      have hsteps := steps_text_tooDeep depth path h.1 h.2 hdepth false [] []
      rw [List.append_nil] at hsteps
      have hskip : skipBlank (text (.root :: path)) = '$' :: text path := skipBlank_cons rfl _
      simp only [parseWithin, hskip]
      exact hsteps.bind _
    | _ => exact False.elim h

/-- The canonical text of a path is a query for the same path. -/
def ReadsBack (path : Path) : Prop :=
  ∃ path', parse (text path) = .ok path' ∧ same path path' = true

theorem readsBack_of_nesting_le {path : Path} (h : WellFormed path)
    (hdepth : nesting path ≤ maxDepth) : ReadsBack path :=
  ⟨asWritten path, parseWithin_text h hdepth, same_asWritten h⟩

theorem not_readsBack_of_lt_nesting {path : Path} (h : WellFormed path)
    (hdepth : maxDepth < nesting path) : ¬ ReadsBack path := by
  rintro ⟨path', hread, -⟩
  obtain ⟨rest, hrefused⟩ := parseWithin_text_tooDeep h hdepth
  rw [parse, hrefused] at hread
  cases hread

theorem wellFormed_of_parse {query : List Char} {path : Path} (h : parse query = .ok path) :
    WellFormed path :=
  (parseWithin_eq_ok_iff.mp h).wellFormed

/-- The text of a well formed path is read back as far as it may nest and refused beyond. Every path
that a query asks for is well formed. -/
theorem parse_canonicalText :
    (∀ path, WellFormed path →
      (nesting path ≤ maxDepth → ReadsBack path) ∧
      (maxDepth < nesting path → ∃ fault, parse (text path) = .error fault ∧
        fault.cause = .malformed .tooDeep ∧ fault.reason = "Expression nested too deeply")) ∧
    ∀ query path, parse query = .ok path →
      WellFormed path ∧ (nesting path ≤ maxDepth → ReadsBack path) := by
  refine ⟨fun path h => ⟨readsBack_of_nesting_le h, fun hdepth => ?_⟩, fun query path h => ?_⟩
  · obtain ⟨rest, hread⟩ := parseWithin_text_tooDeep h hdepth
    exact ⟨_, hread, rfl, rfl⟩
  · have hwell := wellFormed_of_parse h
    exact ⟨hwell, readsBack_of_nesting_le hwell⟩

/-- The child under test exists, negated a number of times. -/
def negations (count : Nat) : Condition := Nat.repeat .not count (.present ⟨.current, []⟩)

theorem wellFormed_negations (count : Nat) : (negations count).WellFormed := by
  induction count with
  | zero => exact fun _ h => nomatch h
  | succ count ih => exact ih

theorem nesting_negations (count : Nat) : (negations count).nesting = 2 * count := by
  induction count with
  | zero => rfl
  | succ count ih =>
    have h : (negations (count + 1)).nesting = 2 + (negations count).nesting := rfl
    omega

theorem unaryText_negations (count depth : Nat) :
    UnaryText (count + depth) (List.replicate count '!' ++ ['@']) (negations count) := by
  induction count with
  | zero => exact .comparing (.present (.reference .current .nil))
  | succ count ih =>
    rw [Nat.add_right_comm]
    exact .not (p := []) blanks_nil ih

/-- A negation in a query nests by itself alone, so 64 of them are read. -/
theorem parse_negations {count : Nat} (h : count ≤ maxDepth) :
    parse ('$' :: '[' :: '?' :: (List.replicate count '!' ++ ['@', ']'])) =
      .ok [.root, .filter (negations count)] := by
  obtain ⟨depth, hdepth⟩ := Nat.exists_eq_add_of_le h
  have hs := unaryText_negations count depth
  rw [← hdepth] at hs
  simpa using parse_bracket (.filter blanks_nil (.conjunction (.unary hs)))

theorem wellFormed_filter {c : Condition} (h : c.WellFormed) : WellFormed [.root, .filter c] := by
  have hpicks : (Step.filter c).Picks := trivial
  have hnil : Arranged [] := trivial
  exact ⟨hnil.cons_picks hpicks, h, trivial⟩

theorem nesting_filter (c : Condition) : nesting [.root, .filter c] = 1 + c.nesting := by
  rw [nesting_root, nesting, nesting, stepNesting, Nat.max_zero]

/-- Texts at the greatest depth and one beyond, and a query with its text. -/
theorem parse_canonicalText_negations :
    (WellFormed [.root, .filter (.and (negations 31) (negations 31))] ∧
      nesting [.root, .filter (.and (negations 31) (negations 31))] = maxDepth ∧
      ReadsBack [.root, .filter (.and (negations 31) (negations 31))]) ∧
    (WellFormed [.root, .filter (negations 32)] ∧
      nesting [.root, .filter (negations 32)] = maxDepth + 1 ∧
      ∃ fault, parse (text [.root, .filter (negations 32)]) = .error fault ∧
        fault.cause = .malformed .tooDeep ∧ fault.reason = "Expression nested too deeply") ∧
    parse "$[?!!@]".toList = .ok [.root, .filter (negations 2)] ∧
      WellFormed [.root, .filter (negations 2)] ∧ ReadsBack [.root, .filter (negations 2)] := by
  have hfit : WellFormed [.root, .filter (.and (negations 31) (negations 31))] :=
    wellFormed_filter ⟨wellFormed_negations 31, wellFormed_negations 31⟩
  have hnesting : nesting [.root, .filter (.and (negations 31) (negations 31))] = maxDepth := by
    rw [nesting_filter, Condition.nesting, nesting_negations, maxDepth]
    rfl
  have hdeep := wellFormed_filter (wellFormed_negations 32)
  have hbeyond : nesting [.root, .filter (negations 32)] = maxDepth + 1 := by
    rw [nesting_filter, nesting_negations, maxDepth]
  have hquery : parse "$[?!!@]".toList = .ok [.root, .filter (negations 2)] :=
    parse_negations (Nat.le_of_ble_eq_true rfl : 2 ≤ maxDepth)
  obtain ⟨hwell, hback⟩ := parse_canonicalText.2 _ _ hquery
  refine ⟨⟨hfit, hnesting, (parse_canonicalText.1 _ hfit).1 (Nat.le_of_eq hnesting)⟩,
    ⟨hdeep, hbeyond, (parse_canonicalText.1 _ hdeep).2 (by rw [hbeyond]; exact Nat.lt_succ_self _)⟩,
    hquery, hwell, hback ?_⟩
  rw [nesting_filter, nesting_negations]
  decide

/-- A query may ask for a path whose canonical text nests too deeply to be read back. -/
theorem exists_parse_not_readsBack :
    parse "$[?!!!!!!!!!!!!!!!!!!!!!!!!!!!!!!!!!@]".toList = .ok [.root, .filter (negations 33)] ∧
      ¬ ReadsBack [.root, .filter (negations 33)] := by
  refine ⟨parse_negations (Nat.le_of_ble_eq_true rfl : 33 ≤ maxDepth), ?_⟩
  refine not_readsBack_of_lt_nesting (wellFormed_filter (wellFormed_negations 33)) ?_
  rw [nesting_filter, nesting_negations]
  decide

end JsonQuery.Path
