import JsonQuery.Toml.Key
import JsonQuery.Toml.Scalar

/-!
Reading TOML. A document is a sequence of assignments and headers, each of which ends with its line;
a byte order mark may stand in front. Arrays and inline tables nest up to a fixed depth: the reader
of one level is built from that of the level within it.
-/

namespace JsonQuery.Toml

structure ItemReader where
  read : List Char → Option (Item × List Char)
  progress : ∀ text item rest, read text = some (item, rest) → rest.length < text.length

def elements? (reader : ItemReader) (text : List Char) : Option (List Item × List Char) :=
  match _h : skipLines text with
  | ']' :: rest => some ([], rest)
  | front =>
    match _hi : reader.read front with
    | none => none
    | some (element, rest) =>
      match _hs : skipLines rest with
      | ']' :: rest' => some ([element], rest')
      | ',' :: rest' => do
        let (elements, rest') ← elements? reader rest'
        return (element :: elements, rest')
      | _ => none
termination_by text.length
decreasing_by
  have := skipLines_length_le text
  have := skipLines_length_le rest
  have := reader.progress _ _ _ _hi
  simp only [_h, _hs, List.length_cons] at *
  omega

theorem elements?_length {reader : ItemReader} {elements : List Item} {text rest : List Char}
    (h : elements? reader text = some (elements, rest)) : rest.length < text.length := by
  fun_induction elements? reader text generalizing elements with
  | case1 text rest₁ hclose =>
    cases h
    exact length_lt_of_skipLines hclose
  | case2 => cases h
  | case3 text element rest₁ rest₂ hclose _ hread =>
    cases h
    have := skipLines_length_le text
    have := reader.progress _ _ _ hread
    have := length_lt_of_skipLines hclose
    omega
  | case4 text element rest₁ rest₂ hcomma _ hread ih =>
    obtain ⟨⟨more, rest₃⟩, hmore, h⟩ := Option.bind_eq_some_iff.mp h
    cases h
    have := skipLines_length_le text
    have := reader.progress _ _ _ hread
    have := length_lt_of_skipLines hcomma
    have := ih hmore
    omega
  | case5 => cases h

structure Assignment where
  key : DottedKey
  item : Item

def assignment? (reader : ItemReader) (text : List Char) : Option (Assignment × List Char) := do
  let (key, rest) ← key? text
  match rest with
  | '=' :: rest => do
    let (item, rest) ← reader.read (skipSpace rest)
    return (⟨key, item⟩, rest)
  | _ => none

theorem assignment?_length {reader : ItemReader} {assigned : Assignment} {text rest : List Char}
    (h : assignment? reader text = some (assigned, rest)) : rest.length < text.length := by
  obtain ⟨⟨key, front⟩, hkey, h⟩ := Option.bind_eq_some_iff.mp h
  have hfront := key?_length hkey
  dsimp only at h
  split at h
  · rename_i rest₁
    obtain ⟨read, hread, h⟩ := Option.bind_eq_some_iff.mp h
    cases h
    have := reader.progress _ _ _ hread
    have := skipSpace_length_le rest₁
    rw [List.length_cons] at hfront
    omega
  · cases h

/-- The assignments of an inline table, up to its closing brace. -/
def pairs? (reader : ItemReader) (members : Members) (text : List Char) :
    Option (Members × List Char) :=
  match _ha : assignment? reader text with
  | none => none
  | some (assigned, rest) =>
    match members.assign? assigned.key assigned.item with
    | none => none
    | some members =>
      match _hs : skipSpace rest with
      | '}' :: rest' => some (members, rest')
      | ',' :: rest' => pairs? reader members rest'
      | _ => none
termination_by text.length
decreasing_by
  have := assignment?_length _ha
  have := skipSpace_length_le rest
  simp only [_hs, List.length_cons] at *
  omega

theorem pairs?_length {reader : ItemReader} {members members' : Members} {text rest : List Char}
    (h : pairs? reader members text = some (members', rest)) : rest.length < text.length := by
  fun_induction pairs? reader members text with
  | case1 => cases h
  | case2 => cases h
  | case3 members text assigned rest₁ hassigned _ _ rest₂ hclose =>
    cases h
    exact Nat.lt_trans (length_lt_of_skipSpace hclose) (assignment?_length hassigned)
  | case4 members text assigned rest₁ hassigned _ _ rest₂ hcomma ih =>
    have := assignment?_length hassigned
    have := length_lt_of_skipSpace hcomma
    have := ih h
    omega
  | case5 => cases h

def inlineTable? (reader : ItemReader) (text : List Char) : Option (Members × List Char) :=
  match skipSpace text with
  | '}' :: rest => some ([], rest)
  | _ => pairs? reader [] text

theorem inlineTable?_length {reader : ItemReader} {members : Members} {text rest : List Char}
    (h : inlineTable? reader text = some (members, rest)) : rest.length < text.length := by
  unfold inlineTable? at h
  split at h
  · rename_i hclose
    cases h
    exact length_lt_of_skipSpace hclose
  · exact pairs?_length h

/-- An item, within which `inner` reads items if there may be any. -/
def itemWith? (inner : Option ItemReader) (text : List Char) : Option (Item × List Char) :=
  match text with
  | '[' :: rest => do
    let (elements, rest) ← elements? (← inner) rest
    return (.array elements, rest)
  | '{' :: rest => do
    let (members, rest) ← inlineTable? (← inner) rest
    return (.table .inline members, rest)
  | text =>
    match string? text with
    | some (s, rest) => some (.string (String.ofList s), rest)
    | none => scalarItem? text

theorem itemWith?_length (inner : Option ItemReader) (text : List Char) (item : Item)
    (rest : List Char) (h : itemWith? inner text = some (item, rest)) :
    rest.length < text.length := by
  unfold itemWith? at h
  split at h
  · obtain ⟨reader, -, h⟩ := Option.bind_eq_some_iff.mp h
    obtain ⟨⟨elements, rest₁⟩, hread, h⟩ := Option.bind_eq_some_iff.mp h
    cases h
    exact Nat.lt_succ_of_lt (elements?_length hread)
  · obtain ⟨reader, -, h⟩ := Option.bind_eq_some_iff.mp h
    obtain ⟨⟨members, rest₁⟩, hread, h⟩ := Option.bind_eq_some_iff.mp h
    cases h
    exact Nat.lt_succ_of_lt (inlineTable?_length hread)
  · split at h
    · rename_i hread
      cases h
      exact string?_length hread
    · exact scalarItem?_length h

/-- The reader of items in which arrays and inline tables are nested to the given depth at most. -/
def itemReader : Nat → ItemReader
  | 0 => ⟨itemWith? none, itemWith?_length none⟩
  | depth + 1 =>
    ⟨itemWith? (some (itemReader depth)), itemWith?_length (some (itemReader depth))⟩

/-- How deep arrays and inline tables may be nested. -/
def maxDepth : Nat := 79

/-- What has been read of a document: its members, and the keys of the last header. -/
structure Draft where
  members : Members
  current : List String

/-- The key of a header whose opening brackets have been read, up to the end of its line. -/
def header? (closing : List Char) (text : List Char) : Option (DottedKey × List Char) := do
  let (key, rest) ← key? text
  if closing <+: rest then return (key, ← lineEnd? (rest.drop closing.length)) else none

theorem header?_length {closing : List Char} {key : DottedKey} {text rest : List Char}
    (h : header? closing text = some (key, rest)) : rest.length < text.length := by
  obtain ⟨⟨key', rest₁⟩, hkey, h⟩ := Option.bind_eq_some_iff.mp h
  have := key?_length hkey
  dsimp only at h
  split at h
  · obtain ⟨rest₂, hend, h⟩ := Option.bind_eq_some_iff.mp h
    cases h
    have := lineEnd?_length_le hend
    rw [List.length_drop] at this
    omega
  · cases h

/-- An assignment or a header with the line that it ends. -/
def expression? (draft : Draft) (text : List Char) : Option (Draft × List Char) :=
  match text with
  | '[' :: '[' :: rest => do
    let (key, rest) ← header? [']', ']'] rest
    return (⟨← draft.members.appendTable? key, key.keys⟩, rest)
  | '[' :: rest => do
    let (key, rest) ← header? [']'] rest
    return (⟨← draft.members.openTable? key, key.keys⟩, rest)
  | text => do
    let (assigned, rest) ← assignment? (itemReader maxDepth) text
    let rest ← lineEnd? rest
    return (⟨← draft.members.assignIn? draft.current assigned.key assigned.item, draft.current⟩,
      rest)

theorem expression?_length {draft draft' : Draft} {text rest : List Char}
    (h : expression? draft text = some (draft', rest)) : rest.length < text.length := by
  unfold expression? at h
  split at h
  · obtain ⟨⟨key, rest₁⟩, hheader, h⟩ := Option.bind_eq_some_iff.mp h
    obtain ⟨members, -, h⟩ := Option.bind_eq_some_iff.mp h
    cases h
    exact Nat.lt_succ_of_lt (Nat.lt_succ_of_lt (header?_length hheader))
  · obtain ⟨⟨key, rest₁⟩, hheader, h⟩ := Option.bind_eq_some_iff.mp h
    obtain ⟨members, -, h⟩ := Option.bind_eq_some_iff.mp h
    cases h
    exact Nat.lt_succ_of_lt (header?_length hheader)
  · obtain ⟨⟨assigned, rest₁⟩, hassigned, h⟩ := Option.bind_eq_some_iff.mp h
    obtain ⟨rest₂, hend, h⟩ := Option.bind_eq_some_iff.mp h
    obtain ⟨members, -, h⟩ := Option.bind_eq_some_iff.mp h
    cases h
    exact Nat.lt_of_le_of_lt (lineEnd?_length_le hend) (assignment?_length hassigned)

/-- Reads on to the end of a document. -/
def expressions? (draft : Draft) (text : List Char) : Option Members :=
  match _h : skipLines text with
  | [] => some draft.members
  | c :: front =>
    match _he : expression? draft (c :: front) with
    | some (draft, rest) => expressions? draft rest
    | none => none
termination_by text.length
decreasing_by
  have hl := skipLines_length_le text
  have := expression?_length _he
  simp only [_h] at hl
  omega

def afterMark : List Char → List Char
  | '\uFEFF' :: text => text
  | text => text

def parse? (text : List Char) : Option Members := expressions? ⟨[], []⟩ (afterMark text)

end JsonQuery.Toml
