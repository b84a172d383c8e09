import JsonQuery.Path.Comparing

/-!
Reading a query. Parentheses, negations and dynamic steps nest, up to a fixed depth: the readers of
one level are built from those of the level within it, and the innermost level refuses to nest.
-/

namespace JsonQuery.Path

open Text (skipBlank length_lt_of_skipBlank Progress bind_eq_ok)

/-- The readers within one more parenthesis, negation or dynamic step. -/
structure Inner where
  condition : Reader Condition
  condition_progress : Progress condition
  negated : Reader Condition
  negated_progress : Progress negated
  /-- The steps of a dynamic step after its `$`, up to its closing bracket. -/
  path : Reader Path
  path_length : ∀ text path' rest, path text = .ok (path', rest) → rest.length ≤ text.length

/-- A negation, a condition in parentheses, or a comparison. -/
def unary (inner : Option Inner) (text : List Char) : Except Fault (Condition × List Char) :=
  match skipBlank text with
  | '!' :: '=' :: rest => comparing ('!' :: '=' :: rest)
  | '!' :: rest =>
    match inner with
    | none => malformed .tooDeep rest
    | some inner => do
      let (c, rest) ← inner.negated rest
      return (.not c, rest)
  | '(' :: rest =>
    match inner with
    | none => malformed .tooDeep rest
    | some inner => do
      let (c, rest) ← inner.condition rest
      return (c, ← expect ')' rest)
  | rest => comparing rest

theorem unary_progress (inner : Option Inner) : Progress (unary inner) := by
  intro text c rest h
  unfold unary at h
  split at h
  · rename_i hs
    have := comparing_length h
    have hb := Text.skipBlank_length_le text
    rw [hs] at hb
    omega
  · rename_i hs
    have := length_lt_of_skipBlank hs
    split at h
    · cases h
    · rename_i inner
      obtain ⟨⟨negated, rest₁⟩, hread, h⟩ := bind_eq_ok.mp h
      cases h
      have := inner.negated_progress _ _ _ hread
      omega
  · rename_i hs
    have := length_lt_of_skipBlank hs
    split at h
    · cases h
    · rename_i inner
      obtain ⟨⟨grouped, rest₁⟩, hread, h⟩ := bind_eq_ok.mp h
      obtain ⟨rest₂, hclose, h⟩ := bind_eq_ok.mp h
      cases h
      have := inner.condition_progress _ _ _ hread
      have := expect_length hclose
      omega
  · have := comparing_length h
    have := Text.skipBlank_length_le text
    omega

/-- What follows `left` in a chain of conditions joined by a mark that is written twice. The chain
associates to the left. -/
def chain (mark : Char) (join : Condition → Condition → Condition) (read : Reader Condition)
    (progress : Progress read) (left : Condition) (text : List Char) :
    Except Fault (Condition × List Char) :=
  match _h : skipBlank text with
  | a :: b :: rest =>
    if a = mark ∧ b = mark then
      match _hr : read rest with
      | .ok (right, rest') => chain mark join read progress (join left right) rest'
      | .error fault => .error fault
    else .ok (left, a :: b :: rest)
  | rest => .ok (left, rest)
  termination_by text.length
  decreasing_by
    have := Text.skipBlank_length_le text
    have := progress _ _ _ _hr
    simp only [_h, List.length_cons] at *
    omega

theorem chain_length {mark : Char} {join : Condition → Condition → Condition}
    {read : Reader Condition} {progress : Progress read} {left c : Condition}
    {text rest : List Char} (h : chain mark join read progress left text = .ok (c, rest)) :
    rest.length ≤ text.length := by
  fun_induction chain mark join read progress left text with
  | case1 left text a b rest₁ hs _ right rest₂ hr ih =>
    have := ih h
    have := progress _ _ _ hr
    have hfront := length_lt_of_skipBlank hs
    rw [List.length_cons] at hfront
    omega
  | case2 => cases h
  | case3 left text a b rest₁ hs _ =>
    cases h
    rw [← hs]
    exact Text.skipBlank_length_le text
  | case4 left text _ =>
    cases h
    exact Text.skipBlank_length_le text

def conjunction (inner : Option Inner) (text : List Char) :
    Except Fault (Condition × List Char) := do
  let (first, rest) ← unary inner text
  chain '&' .and (unary inner) (unary_progress inner) first rest

theorem conjunction_progress (inner : Option Inner) : Progress (conjunction inner) := by
  intro text c rest h
  obtain ⟨⟨first, rest₁⟩, hfirst, hchain⟩ := bind_eq_ok.mp h
  exact Nat.lt_of_le_of_lt (chain_length hchain) (unary_progress inner _ _ _ hfirst)

/-- A whole condition: `||` joins what `&&` joins. -/
def disjunction (inner : Option Inner) (text : List Char) :
    Except Fault (Condition × List Char) := do
  let (first, rest) ← conjunction inner text
  chain '|' .or (conjunction inner) (conjunction_progress inner) first rest

theorem disjunction_progress (inner : Option Inner) : Progress (disjunction inner) := by
  intro text c rest h
  obtain ⟨⟨first, rest₁⟩, hfirst, hchain⟩ := bind_eq_ok.mp h
  exact Nat.lt_of_le_of_lt (chain_length hchain) (conjunction_progress inner _ _ _ hfirst)

def selector (text : List Char) : Except Fault (Selector × List Char) :=
  match text with
  | c :: rest =>
    if isQuote c then do
      let (name, rest) ← quotedTail c [] rest
      return (.name name, rest)
    else if startsInteger c then do
      let (n, rest) ← integer (c :: rest)
      return (.index n, rest)
    else malformed (.unexpected .selector) (c :: rest)
  | [] => malformed (.unexpected .selector) []

theorem selector_length {text rest : List Char} {s : Selector}
    (h : selector text = .ok (s, rest)) : rest.length < text.length := by
  unfold selector at h
  split at h
  · split at h
    · obtain ⟨⟨name, rest₁⟩, hread, h⟩ := bind_eq_ok.mp h
      cases h
      exact Nat.lt_succ_of_lt (quotedTail_length hread)
    · split at h
      · obtain ⟨⟨n, rest₁⟩, hread, h⟩ := bind_eq_ok.mp h
        cases h
        exact integer_length hread
      · cases h
  · cases h

/-- The selectors of a union after those in `done`, the last of which comes first. -/
def selectors (done : List Selector) (text : List Char) :
    Except Fault (List Selector × List Char) :=
  match _h : skipBlank text with
  | ',' :: rest =>
    match _hs : selector (skipBlank rest) with
    | .ok (s, rest') => selectors (s :: done) rest'
    | .error fault => .error fault
  | rest => .ok (done.reverse, rest)
  termination_by text.length
  decreasing_by
    have := Text.skipBlank_length_le text
    have := Text.skipBlank_length_le rest
    have := selector_length _hs
    simp only [_h, List.length_cons] at *
    omega

theorem selectors_length {done ss : List Selector} {text rest : List Char}
    (h : selectors done text = .ok (ss, rest)) : rest.length ≤ text.length := by
  fun_induction selectors done text with
  | case1 done text rest₁ hb s rest₂ hs ih =>
    have := ih h
    have := selector_length hs
    have := Text.skipBlank_length_le rest₁
    have := length_lt_of_skipBlank hb
    omega
  | case2 => cases h
  | case3 done text _ =>
    cases h
    exact Text.skipBlank_length_le text

/-- One selector alone is no union. -/
def selection : List Selector → Step
  | [s] => .select s
  | ss => .union ss

def selectorBracket (first : Selector) (text : List Char) : Except Fault (Step × List Char) := do
  let (ss, rest) ← selectors [first] text
  return (selection ss, ← expect ']' rest)

def sliceBracket (start : Option Int) (text : List Char) : Except Fault (Step × List Char) := do
  let rest ← expect ':' text
  let (stop, rest) ← integer? rest
  match skipBlank rest with
  | ':' :: rest =>
    let (stride, rest') ← integer? rest
    if stride = some 0 then .error ⟨.zeroStride, skipBlank rest⟩
    else return (.slice ⟨start, stop, stride⟩, ← expect ']' rest')
  | rest => return (.slice ⟨start, stop, none⟩, ← expect ']' rest)

theorem selectorBracket_length {first : Selector} {text rest : List Char} {step : Step}
    (h : selectorBracket first text = .ok (step, rest)) : rest.length < text.length := by
  obtain ⟨⟨ss, rest₁⟩, hread, h⟩ := bind_eq_ok.mp h
  obtain ⟨rest₂, hclose, h⟩ := bind_eq_ok.mp h
  cases h
  exact Nat.lt_of_lt_of_le (expect_length hclose) (selectors_length hread)

theorem sliceBracket_length {start : Option Int} {text rest : List Char} {step : Step}
    (h : sliceBracket start text = .ok (step, rest)) : rest.length < text.length := by
  obtain ⟨rest₁, hcolon, h⟩ := bind_eq_ok.mp h
  obtain ⟨⟨stop, rest₂⟩, hstop, h⟩ := bind_eq_ok.mp h
  have := expect_length hcolon
  have := integer?_length hstop
  dsimp only at h
  split at h
  · rename_i hs
    obtain ⟨⟨stride, rest₄⟩, hstride, h⟩ := bind_eq_ok.mp h
    have := length_lt_of_skipBlank hs
    have := integer?_length hstride
    dsimp only at h
    split at h
    · cases h
    · obtain ⟨rest₅, hclose, h⟩ := bind_eq_ok.mp h
      cases h
      have := expect_length hclose
      omega
  · obtain ⟨rest₃, hclose, h⟩ := bind_eq_ok.mp h
    cases h
    have := expect_length hclose
    have := Text.skipBlank_length_le rest₂
    omega

def bracket (inner : Option Inner) (text : List Char) : Except Fault (Step × List Char) :=
  match skipBlank text with
  | '*' :: rest => do return (.wildcard, ← expect ']' rest)
  | '?' :: rest => do
    let (c, rest) ← disjunction inner rest
    return (.filter c, ← expect ']' rest)
  | '$' :: rest =>
    match inner with
    | none => malformed .tooDeep rest
    | some inner => do
      let (path, rest) ← inner.path rest
      return (.dynamic (.root :: path), ← expect ']' rest)
  | ':' :: rest => sliceBracket none (':' :: rest)
  | ']' :: rest => malformed .emptyBrackets (']' :: rest)
  | c :: rest =>
    if startsInteger c then do
      let (n, rest) ← integer (c :: rest)
      match skipBlank rest with
      | ':' :: rest => sliceBracket (some n) (':' :: rest)
      | rest => selectorBracket (.index n) rest
    else if isQuote c then do
      let (name, rest) ← quotedTail c [] rest
      selectorBracket (.name name) rest
    else malformed .bracketStart (c :: rest)
  | [] => malformed (.unexpected .bracket) []

theorem closedBracket_length {α : Type} (make : α → Step) {read : Reader α}
    (hread : ∀ text a rest, read text = .ok (a, rest) → rest.length ≤ text.length)
    {text rest : List Char} {step : Step}
    (h : (read text >>= fun r => expect ']' r.2 >>= fun rest => .ok (make r.1, rest)) =
      .ok (step, rest)) : rest.length < text.length := by
  obtain ⟨⟨a, rest₁⟩, hfirst, h⟩ := bind_eq_ok.mp h
  obtain ⟨rest₂, hclose, h⟩ := bind_eq_ok.mp h
  cases h
  exact Nat.lt_of_lt_of_le (expect_length hclose) (hread _ _ _ hfirst)

theorem integerBracket_length {text rest : List Char} {step : Step}
    (h : (integer text >>= fun r =>
      match skipBlank r.2 with
      | ':' :: rest => sliceBracket (some r.1) (':' :: rest)
      | rest => selectorBracket (.index r.1) rest) = .ok (step, rest)) :
    rest.length < text.length := by
  obtain ⟨⟨n, rest₁⟩, hread, h⟩ := bind_eq_ok.mp h
  have hinteger := integer_length hread
  have hb := Text.skipBlank_length_le rest₁
  dsimp only at h
  split at h
  · rename_i hcolon
    rw [← hcolon] at h
    have := sliceBracket_length h
    omega
  · have := selectorBracket_length h
    omega

theorem bracket_progress (inner : Option Inner) : Progress (bracket inner) := by
  intro text step rest h
  unfold bracket at h
  split at h
  · rename_i hs
    obtain ⟨rest₁, hclose, h⟩ := bind_eq_ok.mp h
    cases h
    exact Nat.lt_trans (expect_length hclose) (length_lt_of_skipBlank hs)
  · rename_i hs
    have hcondition := fun text c rest h => Nat.le_of_lt (disjunction_progress inner text c rest h)
    exact Nat.lt_trans (closedBracket_length .filter hcondition h) (length_lt_of_skipBlank hs)
  · rename_i hs
    split at h
    · cases h
    · rename_i inner
      exact Nat.lt_trans (closedBracket_length (.dynamic <| .root :: ·) inner.path_length h)
        (length_lt_of_skipBlank hs)
  · rename_i hs
    have hb := Text.skipBlank_length_le text
    rw [hs] at hb
    exact Nat.lt_of_lt_of_le (sliceBracket_length h) hb
  · cases h
  · rename_i c rest₁ _ _ _ _ _ hs
    have hfront := length_lt_of_skipBlank hs
    split at h
    · exact Nat.lt_of_lt_of_le (integerBracket_length h) hfront
    · split at h
      · obtain ⟨⟨name, rest₂⟩, hread, h⟩ := bind_eq_ok.mp h
        have := quotedTail_length hread
        have := selectorBracket_length h
        omega
      · cases h
  · cases h

def afterDot (text : List Char) : Except Fault (Step × List Char) :=
  match skipBlank text with
  | '.' :: rest => malformed .brokenDescent ('.' :: rest)
  | '*' :: rest => .ok (.wildcard, rest)
  | rest => do
    let (name, rest) ← memberName .afterDot rest
    return (.select (.name name), rest)

theorem afterDot_length {text rest : List Char} {step : Step}
    (h : afterDot text = .ok (step, rest)) : rest.length < text.length := by
  unfold afterDot at h
  split at h
  · cases h
  · rename_i hs
    cases h
    exact length_lt_of_skipBlank hs
  · obtain ⟨⟨name, rest₁⟩, hread, h⟩ := bind_eq_ok.mp h
    cases h
    exact Nat.lt_of_lt_of_le (memberName_length hread) (Text.skipBlank_length_le text)

def afterDots (inner : Option Inner) (text : List Char) : Except Fault (Step × List Char) :=
  match skipBlank text with
  | '*' :: rest => .ok (.wildcard, rest)
  | '[' :: rest => bracket inner rest
  | rest => do
    let (name, rest) ← memberName .afterDots rest
    return (.select (.name name), rest)

theorem afterDots_length {inner : Option Inner} {text rest : List Char} {step : Step}
    (h : afterDots inner text = .ok (step, rest)) : rest.length < text.length := by
  unfold afterDots at h
  split at h
  · rename_i hs
    cases h
    exact length_lt_of_skipBlank hs
  · rename_i hs
    exact Nat.lt_trans (bracket_progress inner _ _ _ h) (length_lt_of_skipBlank hs)
  · obtain ⟨⟨name, rest₁⟩, hread, h⟩ := bind_eq_ok.mp h
    cases h
    exact Nat.lt_of_lt_of_le (memberName_length hread) (Text.skipBlank_length_le text)

/-- The steps of a path after those in `done`, the last of which comes first. The steps of a
dynamic step, for which `enclosed` holds, end before a closing bracket, all others at the end of
the text. -/
def steps (inner : Option Inner) (enclosed : Bool) (done : Path) (text : List Char) :
    Except Fault (Path × List Char) :=
  match _h : skipBlank text with
  | [] => if enclosed then malformed (.missing ']') [] else .ok (done.reverse, [])
  | '.' :: '.' :: rest =>
    match _hs : afterDots inner rest with
    | .ok (step, rest') => steps inner enclosed (step :: .descent :: done) rest'
    | .error fault => .error fault
  | '.' :: rest =>
    match _hs : afterDot rest with
    | .ok (step, rest') => steps inner enclosed (step :: done) rest'
    | .error fault => .error fault
  | '[' :: rest =>
    match _hs : bracket inner rest with
    | .ok (step, rest') => steps inner enclosed (step :: done) rest'
    | .error fault => .error fault
  | c :: rest =>
    if enclosed ∧ c = ']' then .ok (done.reverse, c :: rest)
    else malformed (.unexpected .step) (c :: rest)
  termination_by text.length
  decreasing_by
    all_goals
      have := Text.skipBlank_length_le text
      simp only [_h, List.length_cons] at this
    · have := afterDots_length _hs
      omega
    · have := afterDot_length _hs
      omega
    · have := bracket_progress inner _ _ _ _hs
      omega

theorem steps_length {inner : Option Inner} {enclosed : Bool} {done path : Path}
    {text rest : List Char} (h : steps inner enclosed done text = .ok (path, rest)) :
    rest.length ≤ text.length := by
  fun_induction steps inner enclosed done text with
  | case1 => cases h
  | case2 =>
    cases h
    exact Nat.zero_le _
  | case3 done text rest₁ hs step rest₂ hread ih =>
    have := ih h
    have := afterDots_length hread
    have hfront := length_lt_of_skipBlank hs
    rw [List.length_cons] at hfront
    omega
  | case4 => cases h
  | case5 done text rest₁ _ hs step rest₂ hread ih =>
    have := ih h
    have := afterDot_length hread
    have := length_lt_of_skipBlank hs
    omega
  | case6 => cases h
  | case7 done text rest₁ hs step rest₂ hread ih =>
    have := ih h
    have := bracket_progress inner _ _ _ hread
    have := length_lt_of_skipBlank hs
    omega
  | case8 => cases h
  | case9 done text c rest₁ _ _ _ hs _ =>
    cases h
    rw [← hs]
    exact Text.skipBlank_length_le text
  | case10 => cases h

/-- The readers that may nest the given number of times below a level. -/
def inner : Nat → Option Inner
  | 0 => none
  | depth + 1 =>
    let within := inner depth
    some
      { condition := disjunction within
        condition_progress := disjunction_progress within
        negated := unary within
        negated_progress := unary_progress within
        path := steps within true []
        path_length := fun _ _ _ h => steps_length h }

/-- The path of a query in which parentheses, negations and dynamic steps nest up to `depth`. -/
def parseWithin (depth : Nat) (query : List Char) : Except Fault Path :=
  match skipBlank query with
  | '$' :: rest => do
    let (path, _) ← steps (inner depth) false [] rest
    return .root :: path
  | rest => .error ⟨.missingRoot, rest⟩

/-- How often parentheses, negations and dynamic steps may nest. -/
def maxDepth : Nat := 64

/-- The path of a query. -/
def parse (query : List Char) : Except Fault Path := parseWithin maxDepth query

end JsonQuery.Path
