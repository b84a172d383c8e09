import JsonQuery.Json.NumberLiteral
import JsonQuery.Json.StringLiteral
import JsonQuery.Value.Basic

/-!
Reading a JSON document. The containers that are open are kept in a list, so that the nesting of a
document is bounded by memory alone. Each finished value is put into the innermost open container,
which then goes on or closes and is itself a finished value.
-/

namespace JsonQuery.Json

open Text (bind_eq_ok)

def isSpace (c : Char) : Bool := c == ' ' || c == '\n' || c == '\r' || c == '\t'

def skipSpace (text : List Char) : List Char := text.dropWhile isSpace

theorem skipSpace_length_le (text : List Char) : (skipSpace text).length ≤ text.length :=
  (List.dropWhile_suffix isSpace).length_le

theorem length_lt_of_skipSpace {c : Char} {text rest : List Char}
    (h : skipSpace text = c :: rest) : rest.length < text.length := by
  have hle := skipSpace_length_le text
  rw [h, List.length_cons] at hle
  exact hle

/-- The rest of a word, of which `letters` are still to come. -/
def word (w : String) : (letters text : List Char) → Except Fault (List Char)
  | [], text => .ok text
  | _ :: _, [] => unexpected (.word w) []
  | letter :: letters, c :: rest =>
    if c = letter then word w letters rest else unexpected (.word w) (c :: rest)

/-- A value without members, at the front of a text. -/
def scalar (text : List Char) : Except Fault (Value × List Char) :=
  match text with
  | '"' :: rest => do
    let (s, rest) ← stringTail [] rest
    return (.string s, rest)
  | 't' :: _ => do return (.boolean true, ← word "true" "true".toList text)
  | 'f' :: _ => do return (.boolean false, ← word "false" "false".toList text)
  | 'n' :: _ => do return (.null, ← word "null" "null".toList text)
  | c :: _ =>
    if c = '-' ∨ c.isDigit then do
      let (x, rest) ← number text
      return (.number x, rest)
    else
      unexpected .value text
  | [] => unexpected .value text

/-- A key with its colon. -/
def key (text : List Char) : Except Fault (String × List Char) :=
  match skipSpace text with
  | '"' :: rest => do
    let (s, rest) ← stringTail [] rest
    match skipSpace rest with
    | ':' :: rest => return (s, rest)
    | rest => unexpected .colon rest
  | rest => unexpected .key rest

/-- A container that is open: what it holds so far, and in an object the key whose value is to
come. The elements of an array stand last first. -/
inductive Open where
  | array (done : List Value)
  | object (done : List (String × Value)) (key : String)

theorem word_length {w : String} {letters text rest : List Char}
    (h : word w letters text = .ok rest) : rest.length + letters.length = text.length := by
  fun_induction word w letters text with
  | case1 =>
    cases h
    rfl
  | case2 => cases h
  | case3 letter letters rest' ih =>
    have := ih h
    simp only [List.length_cons]
    omega
  | case4 => cases h

theorem scalar_length {text rest : List Char} {v : Value} (h : scalar text = .ok (v, rest)) :
    rest.length < text.length := by
  unfold scalar at h
  have hword : ∀ {w : String} {text : List Char}, 0 < w.toList.length →
      word w w.toList text = .ok rest → rest.length < text.length := by
    intro w text hw hread
    have := word_length hread
    omega
  split at h
  · obtain ⟨⟨s, rest₁⟩, hread, h⟩ := bind_eq_ok.mp h
    cases h
    exact Nat.lt_succ_of_lt (stringTail_length hread)
  · obtain ⟨rest₁, hread, h⟩ := bind_eq_ok.mp h
    cases h
    exact hword (by decide) hread
  · obtain ⟨rest₁, hread, h⟩ := bind_eq_ok.mp h
    cases h
    exact hword (by decide) hread
  · obtain ⟨rest₁, hread, h⟩ := bind_eq_ok.mp h
    cases h
    exact hword (by decide) hread
  · split at h
    · obtain ⟨⟨x, rest₁⟩, hread, h⟩ := bind_eq_ok.mp h
      cases h
      exact number_length hread
    · cases h
  · cases h

theorem key_length {text rest : List Char} {s : String} (h : key text = .ok (s, rest)) :
    rest.length < text.length := by
  unfold key at h
  split at h
  · rename_i rest₁ hq
    obtain ⟨⟨s', rest₂⟩, hread, h⟩ := bind_eq_ok.mp h
    have := stringTail_length hread
    have := length_lt_of_skipSpace hq
    dsimp only at h
    split at h
    · rename_i hcolon
      cases h
      have := length_lt_of_skipSpace hcolon
      omega
    · cases h
  · cases h

mutual

/-- Reads a value and all that follows it in the open containers. -/
def readValue (opened : List Open) (text : List Char) : Except Fault Value :=
  match _h : skipSpace text with
  | '{' :: rest =>
    match _h' : skipSpace rest with
    | '}' :: rest' => readOn opened (.object []) rest'
    | _ =>
      match _hk : key rest with
      | .ok (k, rest') => readValue (.object [] k :: opened) rest'
      | .error fault => .error fault
  | '[' :: rest =>
    match _h' : skipSpace rest with
    | ']' :: rest' => readOn opened (.array []) rest'
    | _ => readValue (.array [] :: opened) rest
  | rest =>
    match _hs : scalar rest with
    | .ok (v, rest') => readOn opened v rest'
    | .error fault => .error fault
  termination_by text.length
  decreasing_by
    · have := length_lt_of_skipSpace _h
      have := length_lt_of_skipSpace _h'
      omega
    · have := length_lt_of_skipSpace _h
      have := key_length _hk
      omega
    · have := length_lt_of_skipSpace _h
      have := length_lt_of_skipSpace _h'
      omega
    · exact length_lt_of_skipSpace _h
    · have hle := skipSpace_length_le text
      rw [_h] at hle
      have := scalar_length _hs
      omega

/-- Puts a finished value into the innermost open container and goes on behind it. -/
def readOn (opened : List Open) (v : Value) (text : List Char) : Except Fault Value :=
  match opened with
  | [] =>
    match skipSpace text with
    | [] => .ok v
    | rest => .error ⟨.trailing, rest⟩
  | .array done :: opened =>
    match _h : skipSpace text with
    | ',' :: rest => readValue (.array (v :: done) :: opened) rest
    | ']' :: rest => readOn opened (.array (v :: done).reverse) rest
    | rest => unexpected .elementEnd rest
  | .object done k :: opened =>
    match _h : skipSpace text with
    | ',' :: rest =>
      match _hk : key rest with
      | .ok (k', rest') => readValue (.object (Keyed.put k v done) k' :: opened) rest'
      | .error fault => .error fault
    | '}' :: rest => readOn opened (.object (Keyed.put k v done)) rest
    | rest => unexpected .memberEnd rest
  termination_by text.length
  decreasing_by
    · exact length_lt_of_skipSpace _h
    · exact length_lt_of_skipSpace _h
    · exact Nat.lt_trans (key_length _hk) (length_lt_of_skipSpace _h)
    · exact length_lt_of_skipSpace _h

end

/-- The value of a document. The text must hold exactly one value. -/
def parse (document : List Char) : Except Fault Value := readValue [] document

end JsonQuery.Json
