import JsonQuery.Text.Hex
import JsonQuery.Toml.Space

/-!
Strings of TOML. Those in double quotes have escapes, those in single quotes have none; three quotes
in a row open a string of several lines, which may end in up to two more quotes than the three that
close it.
-/

namespace JsonQuery.Toml

def escapedChar? : Char → Option Char
  | 'b' => some '\x08'
  | 't' => some '\t'
  | 'n' => some '\n'
  | 'f' => some '\x0c'
  | 'r' => some '\r'
  | '"' => some '"'
  | '\\' => some '\\'
  | _ => none

def scalar? (n : Nat) : Option Char := if n.isValidChar then some (Char.ofNat n) else none

/-- The number of an exact count of hexadecimal digits at the front of a text. -/
def hexNumber? (count : Nat) (text : List Char) : Option (Nat × List Char) :=
  if count ≤ text.length then do
    let digits ← (text.take count).mapM Text.hexValue?
    return (digits.foldl (fun n d => 16 * n + d) 0, text.drop count)
  else none

def escape? : List Char → Option (Char × List Char)
  | 'u' :: rest => do
    let (n, rest) ← hexNumber? 4 rest
    return (← scalar? n, rest)
  | 'U' :: rest => do
    let (n, rest) ← hexNumber? 8 rest
    return (← scalar? n, rest)
  | c :: rest => do return (← escapedChar? c, rest)
  | [] => none

theorem hexNumber?_length_le {count n : Nat} {text rest : List Char}
    (h : hexNumber? count text = some (n, rest)) : rest.length ≤ text.length := by
  unfold hexNumber? at h
  split at h
  · obtain ⟨digits, -, h⟩ := Option.bind_eq_some_iff.mp h
    cases h
    rw [List.length_drop]
    exact Nat.sub_le _ _
  · cases h

theorem escape?_length {c : Char} {text rest : List Char} (h : escape? text = some (c, rest)) :
    rest.length < text.length := by
  unfold escape? at h
  split at h
  · obtain ⟨⟨n, rest₁⟩, hread, h⟩ := Option.bind_eq_some_iff.mp h
    obtain ⟨c', -, h⟩ := Option.bind_eq_some_iff.mp h
    cases h
    exact Nat.lt_succ_of_le (hexNumber?_length_le hread)
  · obtain ⟨⟨n, rest₁⟩, hread, h⟩ := Option.bind_eq_some_iff.mp h
    obtain ⟨c', -, h⟩ := Option.bind_eq_some_iff.mp h
    cases h
    exact Nat.lt_succ_of_le (hexNumber?_length_le hread)
  · obtain ⟨c', -, h⟩ := Option.bind_eq_some_iff.mp h
    cases h
    exact Nat.lt_succ_self _
  · cases h

def basicRest? (text : List Char) : Option (List Char × List Char) :=
  match text with
  | [] => none
  | '"' :: rest => some ([], rest)
  | '\\' :: rest =>
    match _h : escape? rest with
    | some (c, rest) => do
      let (cs, rest) ← basicRest? rest
      return (c :: cs, rest)
    | none => none
  | c :: rest =>
    if isPlain c then do
      let (cs, rest) ← basicRest? rest
      return (c :: cs, rest)
    else none
termination_by text.length
decreasing_by
  · have := escape?_length _h
    simp only [List.length_cons]
    omega
  · simp

def literalRest? (text : List Char) : Option (List Char × List Char) :=
  let content := text.takeWhile fun c => c != '\'' && isPlain c
  match text.drop content.length with
  | '\'' :: rest => some (content, rest)
  | _ => none

/-- The text after a backslash at the end of a line, with all space and line ends that follow. -/
def joinedLine? (text : List Char) : Option (List Char) := do
  let rest ← newline? (skipSpace text)
  return go rest
where
  go : List Char → List Char
    | ' ' :: rest => go rest
    | '\t' :: rest => go rest
    | '\n' :: rest => go rest
    | '\r' :: '\n' :: rest => go rest
    | text => text

/-- The quotes that close a string of several lines, and those before them that belong to it. -/
def closing? (quote : Char) (text : List Char) : Option (List Char × List Char) :=
  let quotes := (text.takeWhile (· = quote)).length
  if quotes < 3 then none
  else
    let extra := min 2 (quotes - 3)
    some (List.replicate extra quote, text.drop (extra + 3))

theorem joinedLine?_go_length_le (text : List Char) :
    (joinedLine?.go text).length ≤ text.length := by
  fun_induction joinedLine?.go text <;> simp only [List.length_cons, Nat.le_refl] <;> omega

theorem joinedLine?_length {text rest : List Char} (h : joinedLine? text = some rest) :
    rest.length < text.length := by
  obtain ⟨rest₁, hbreak, h⟩ := Option.bind_eq_some_iff.mp h
  cases h
  have := newline?_length hbreak
  have := skipSpace_length_le text
  have := joinedLine?_go_length_le rest₁
  omega

/-- One part of a string of several lines, with its content: an escape, a line end, a quote or a
plain character. -/
def multilinePart? (quote : Char) (text : List Char) : Option (List Char × List Char) :=
  match newline? text with
  | some rest => some (['\n'], rest)
  | none =>
    match text with
    | [] => none
    | c :: rest =>
      if quote = '"' ∧ c = '\\' then
        match joinedLine? rest with
        | some rest => some ([], rest)
        | none => do
          let (c, rest) ← escape? rest
          return ([c], rest)
      else if isPlain c then some ([c], rest)
      else none

theorem multilinePart?_length {quote : Char} {text part rest : List Char}
    (h : multilinePart? quote text = some (part, rest)) : rest.length < text.length := by
  unfold multilinePart? at h
  split at h
  · rename_i hbreak
    cases h
    exact newline?_length hbreak
  · split at h
    · cases h
    · split at h
      · split at h
        · rename_i hjoined
          cases h
          exact Nat.lt_succ_of_lt (joinedLine?_length hjoined)
        · obtain ⟨⟨c, rest₁⟩, hread, h⟩ := Option.bind_eq_some_iff.mp h
          cases h
          exact Nat.lt_succ_of_lt (escape?_length hread)
      · split at h
        · cases h
          exact Nat.lt_succ_self _
        · cases h

def multilineRest? (quote : Char) (text : List Char) : Option (List Char × List Char) :=
  match closing? quote text with
  | some closed => some closed
  | none =>
    match _h : multilinePart? quote text with
    | some (part, rest) => do
      let (content, rest) ← multilineRest? quote rest
      return (part ++ content, rest)
    | none => none
termination_by text.length
decreasing_by exact multilinePart?_length _h

/-- A string of several lines. A line end right after the opening quotes does not count. -/
def multiline? (quote : Char) (text : List Char) : Option (List Char × List Char) :=
  multilineRest? quote ((newline? text).getD text)

theorem basicRest?_length {content text rest : List Char}
    (h : basicRest? text = some (content, rest)) : rest.length < text.length := by
  fun_induction basicRest? text generalizing content with
  | case1 => cases h
  | case2 rest' =>
    cases h
    exact Nat.lt_succ_self _
  | case3 rest' c rest₁ hescape ih =>
    obtain ⟨⟨cs, rest₂⟩, hread, h⟩ := Option.bind_eq_some_iff.mp h
    cases h
    exact Nat.lt_succ_of_lt (Nat.lt_trans (ih hread) (escape?_length hescape))
  | case4 => cases h
  | case5 c rest' _ _ _ ih =>
    obtain ⟨⟨cs, rest₂⟩, hread, h⟩ := Option.bind_eq_some_iff.mp h
    cases h
    exact Nat.lt_succ_of_lt (ih hread)
  | case6 => cases h

theorem literalRest?_length {content text rest : List Char}
    (h : literalRest? text = some (content, rest)) : rest.length < text.length := by
  simp only [literalRest?] at h
  split at h
  · rename_i h'
    have := congrArg List.length h'
    cases h
    simp only [List.length_drop, List.length_cons] at this
    omega
  · cases h

theorem closing?_length {quote : Char} {content text rest : List Char}
    (h : closing? quote text = some (content, rest)) : rest.length < text.length := by
  have hq := (List.takeWhile_prefix (l := text) (· = quote)).length_le
  simp only [closing?] at h
  split at h
  · cases h
  · cases h
    simp only [List.length_drop]
    omega

theorem multilineRest?_length {quote : Char} {content text rest : List Char}
    (h : multilineRest? quote text = some (content, rest)) : rest.length < text.length := by
  fun_induction multilineRest? quote text generalizing content with
  | case1 text closed hclosed =>
    cases h
    exact closing?_length hclosed
  | case2 text _ part rest₁ hpart ih =>
    obtain ⟨⟨more, rest₂⟩, hread, h⟩ := Option.bind_eq_some_iff.mp h
    cases h
    exact Nat.lt_trans (ih hread) (multilinePart?_length hpart)
  | case3 => cases h

theorem multiline?_length {quote : Char} {content text rest : List Char}
    (h : multiline? quote text = some (content, rest)) : rest.length < text.length := by
  have := multilineRest?_length h
  cases h' : newline? text with
  | none => simpa [h'] using this
  | some rest' =>
    have := newline?_length h'
    simp only [h', Option.getD_some] at *
    omega

def quotedLine? : List Char → Option (List Char × List Char)
  | '"' :: rest => basicRest? rest
  | '\'' :: rest => literalRest? rest
  | _ => none

def string? : List Char → Option (List Char × List Char)
  | '"' :: '"' :: '"' :: rest => multiline? '"' rest
  | '\'' :: '\'' :: '\'' :: rest => multiline? '\'' rest
  | text => quotedLine? text

theorem quotedLine?_length {content text rest : List Char}
    (h : quotedLine? text = some (content, rest)) : rest.length < text.length := by
  unfold quotedLine? at h
  split at h
  · exact Nat.lt_succ_of_lt (basicRest?_length h)
  · exact Nat.lt_succ_of_lt (literalRest?_length h)
  · cases h

theorem string?_length {content text rest : List Char}
    (h : string? text = some (content, rest)) : rest.length < text.length := by
  unfold string? at h
  split at h
  · have := multiline?_length h
    simp only [List.length_cons]
    omega
  · have := multiline?_length h
    simp only [List.length_cons]
    omega
  · exact quotedLine?_length h

end JsonQuery.Toml
