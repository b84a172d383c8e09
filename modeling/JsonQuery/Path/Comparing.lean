import JsonQuery.Path.Lexeme

/-!
Reading the innermost parts of a condition: references, operands and comparisons.
-/

namespace JsonQuery.Path

open Text (skipBlank length_lt_of_skipBlank bind_eq_ok)

def expect (wanted : Char) (text : List Char) : Except Fault (List Char) :=
  match skipBlank text with
  | c :: rest => if c = wanted then .ok rest else malformed (.missing wanted) (c :: rest)
  | [] => malformed (.missing wanted) []

theorem expect_length {wanted : Char} {text rest : List Char} (h : expect wanted text = .ok rest) :
    rest.length < text.length := by
  unfold expect at h
  split at h
  · rename_i hs
    split at h
    · cases h
      exact length_lt_of_skipBlank hs
    · cases h
  · cases h

/-- A name or an index inside the brackets of a reference that begins at `start`. -/
def bracketSelector (start text : List Char) : Except Fault (Selector × List Char) :=
  match skipBlank text with
  | [] => malformed (.unexpected .nameOrIndex) []
  | c :: rest =>
    if isQuote c then do
      let (name, rest) ← quotedTail c [] rest
      return (.name name, rest)
    else if startsInteger c then do
      let (n, rest) ← integer (c :: rest)
      match skipBlank rest with
      | ':' :: _ => unsupported .slice start
      | rest => return (.index n, rest)
    else if c = ']' then malformed .emptyBrackets (c :: rest)
    else unsupported .segment start

theorem bracketSelector_length {start text rest : List Char} {selector : Selector}
    (h : bracketSelector start text = .ok (selector, rest)) : rest.length < text.length := by
  unfold bracketSelector at h
  split at h
  · cases h
  · rename_i c rest₁ hs
    have hfront := length_lt_of_skipBlank hs
    split at h
    · obtain ⟨⟨name, rest₂⟩, hread, h⟩ := bind_eq_ok.mp h
      cases h
      have := quotedTail_length hread
      omega
    · split at h
      · obtain ⟨⟨n, rest₂⟩, hread, h⟩ := bind_eq_ok.mp h
        have hinteger := integer_length hread
        have hb := Text.skipBlank_length_le rest₂
        rw [List.length_cons] at hinteger
        dsimp only at h
        split at h
        · cases h
        · cases h
          omega
      · split at h
        · cases h
        · cases h

/-- One segment of a reference: a name behind a dot, or a name or an index in brackets. -/
def segment? (text : List Char) : Except Fault (Option (Selector × List Char)) :=
  match text with
  | '.' :: '.' :: _ => unsupported .descent text
  | '.' :: '*' :: _ => unsupported .wildcard text
  | '.' :: rest => do
    let (name, rest) ← memberName .memberName rest
    return some (.name name, rest)
  | '[' :: rest => do
    let (selector, rest) ← bracketSelector text rest
    match skipBlank rest with
    | ',' :: _ => unsupported .union text
    | rest => return some (selector, ← expect ']' rest)
  | _ => .ok none

theorem segment?_length {text rest : List Char} {selector : Selector}
    (h : segment? text = .ok (some (selector, rest))) : rest.length < text.length := by
  unfold segment? at h
  split at h
  · cases h
  · cases h
  · obtain ⟨⟨name, rest₁⟩, hread, h⟩ := bind_eq_ok.mp h
    cases h
    have := memberName_length hread
    rw [List.length_cons]
    omega
  · obtain ⟨⟨selector', rest₁⟩, hread, h⟩ := bind_eq_ok.mp h
    have := bracketSelector_length hread
    have := Text.skipBlank_length_le rest₁
    dsimp only at h
    split at h
    · cases h
    · obtain ⟨rest₂, hclose, h⟩ := bind_eq_ok.mp h
      cases h
      have := expect_length hclose
      rw [List.length_cons]
      omega
  · cases h

/-- The segments of a reference after those in `done`, the last of which comes first. No blanks
stand between segments. -/
def segments (done : List Selector) (text : List Char) :
    Except Fault (List Selector × List Char) :=
  match _h : segment? text with
  | .ok (some (selector, rest)) => segments (selector :: done) rest
  | .ok none => .ok (done.reverse, text)
  | .error fault => .error fault
  termination_by text.length
  decreasing_by exact segment?_length _h

theorem segments_length {done selectors : List Selector} {text rest : List Char}
    (h : segments done text = .ok (selectors, rest)) : rest.length ≤ text.length := by
  fun_induction segments done text with
  | case1 done text selector rest₁ h₁ ih =>
    have := ih h
    have := segment?_length h₁
    omega
  | case2 done text _ =>
    cases h
    exact Nat.le_refl _
  | case3 => cases h

/-- The operators of related languages that are known by a word. -/
def wordOperators : List String :=
  ["in", "nin", "subsetof", "anyof", "noneof", "size", "empty", "contains"]

def comparison? (text : List Char) : Except Fault (Option Comparison × List Char) :=
  match text with
  | '=' :: '~' :: _ => unsupported .regularExpression text
  | '=' :: '=' :: rest => .ok (some .eq, rest)
  | '!' :: '=' :: rest => .ok (some .ne, rest)
  | '<' :: '=' :: rest => .ok (some .le, rest)
  | '>' :: '=' :: rest => .ok (some .ge, rest)
  | '<' :: rest => .ok (some .lt, rest)
  | '>' :: rest => .ok (some .gt, rest)
  | '=' :: _ => malformed .singleEquals text
  | c :: _ =>
    if Text.isAlphabetic c then
      let word := text.takeWhile Text.isAlphanumeric
      if String.ofList word ∈ wordOperators then unsupported (.operator word) text
      else malformed (.noComparison word) text
    else .ok (none, text)
  | [] => .ok (none, [])

theorem comparison?_length {text rest : List Char} {c : Option Comparison}
    (h : comparison? text = .ok (c, rest)) : rest.length ≤ text.length := by
  unfold comparison? at h
  split at h
  case h_9 =>
    dsimp only at h
    split at h
    · split at h
      · cases h
      · cases h
    · cases h
      exact Nat.le_refl _
  case h_10 =>
    cases h
    exact Nat.le_refl _
  all_goals cases h
  all_goals
    simp only [List.length_cons]
    omega

def literalWord? (word : List Char) : Option Value :=
  if word = "true".toList then some (.boolean true)
  else if word = "false".toList then some (.boolean false)
  else if word = "null".toList then some .null
  else none

def operand (text : List Char) : Except Fault (Operand × List Char) :=
  match skipBlank text with
  | '@' :: rest => do
    let (selectors, rest) ← segments [] rest
    return (.reference ⟨.current, selectors⟩, rest)
  | '$' :: rest => do
    let (selectors, rest) ← segments [] rest
    return (.reference ⟨.root, selectors⟩, rest)
  | c :: rest =>
    if isQuote c then do
      let (s, rest) ← quotedTail c [] rest
      return (.literal (.string s), rest)
    else if startsInteger c then do
      let (x, rest) ← numberLiteral (c :: rest)
      return (.literal (.number x), rest)
    else if Text.isAlphabetic c then
      let word := (c :: rest).takeWhile isNameChar
      let after := (c :: rest).dropWhile isNameChar
      if (skipBlank after).head? = some '(' then unsupported (.function word) (c :: rest)
      else
        match literalWord? word with
        | some v => .ok (.literal v, after)
        | none => malformed (.noLiteral word) (c :: rest)
    else malformed (.unexpected .operand) (c :: rest)
  | [] => malformed (.unexpected .operand) []

theorem operand_length {text rest : List Char} {o : Operand}
    (h : operand text = .ok (o, rest)) : rest.length < text.length := by
  unfold operand at h
  split at h
  · rename_i hs
    obtain ⟨⟨selectors, rest₁⟩, hread, h⟩ := bind_eq_ok.mp h
    cases h
    exact Nat.lt_of_le_of_lt (segments_length hread) (length_lt_of_skipBlank hs)
  · rename_i hs
    obtain ⟨⟨selectors, rest₁⟩, hread, h⟩ := bind_eq_ok.mp h
    cases h
    exact Nat.lt_of_le_of_lt (segments_length hread) (length_lt_of_skipBlank hs)
  · rename_i c rest₁ _ _ hs
    have hfront := length_lt_of_skipBlank hs
    split at h
    · obtain ⟨⟨s, rest₂⟩, hread, h⟩ := bind_eq_ok.mp h
      cases h
      exact Nat.lt_trans (quotedTail_length hread) hfront
    · split at h
      · obtain ⟨⟨x, rest₂⟩, hread, h⟩ := bind_eq_ok.mp h
        cases h
        exact Nat.lt_of_lt_of_le (numberLiteral_length hread) hfront
      · split at h
        · rename_i hletter
          have hname : isNameChar c = true := by
            simp [isNameChar, Text.isAlphanumeric, hletter]
          have hafter := (List.dropWhile_suffix isNameChar (l := rest₁)).length_le
          dsimp only at h
          split at h
          · cases h
          · split at h
            · cases h
              rw [List.dropWhile_cons, if_pos hname]
              omega
            · cases h
        · cases h
  · cases h

/-- A comparison of two operands, or one reference. `text` starts with the first operand. -/
def comparing (text : List Char) : Except Fault (Condition × List Char) := do
  let (left, rest) ← operand text
  let (comparison, rest) ← comparison? (skipBlank rest)
  match comparison, left with
  | none, .reference r => return (.present r, rest)
  | none, .literal _ => unsupported .bareLiteral text
  | some comparison, left =>
    let rest := skipBlank rest
    if rest.head?.all (· ∈ [')', ']']) then
      malformed (.noOperand comparison) rest
    else
      let (right, rest) ← operand rest
      return (.compare left comparison right, rest)

theorem comparing_length {text rest : List Char} {c : Condition}
    (h : comparing text = .ok (c, rest)) : rest.length < text.length := by
  unfold comparing at h
  obtain ⟨⟨left, rest₁⟩, hleft, h⟩ := bind_eq_ok.mp h
  obtain ⟨⟨comparison, rest₂⟩, hmark, h⟩ := bind_eq_ok.mp h
  have := operand_length hleft
  have := Text.skipBlank_length_le rest₁
  have := comparison?_length hmark
  dsimp only at h
  split at h
  · cases h
    omega
  · cases h
  · split at h
    · cases h
    · obtain ⟨right, hright, h⟩ := bind_eq_ok.mp h
      cases h
      have := operand_length hright
      have := Text.skipBlank_length_le rest₂
      omega

end JsonQuery.Path
