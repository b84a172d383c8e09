/-!
What stands between the parts of a TOML document: spaces and tabs, line ends and comments.
-/

namespace JsonQuery.Toml

def isSpace (c : Char) : Bool := c == ' ' || c == '\t'

def skipSpace (text : List Char) : List Char := text.dropWhile isSpace

/-- A character that a comment or a string may hold as it is. -/
def isPlain (c : Char) : Bool := c == '\t' || (0x20 ≤ c.toNat && c.toNat != 0x7F)

def newline? : List Char → Option (List Char)
  | '\n' :: rest => some rest
  | '\r' :: '\n' :: rest => some rest
  | _ => none

def skipComment : List Char → List Char
  | '#' :: rest => rest.dropWhile isPlain
  | text => text

theorem newline?_length {text rest : List Char} (h : newline? text = some rest) :
    rest.length < text.length := by
  unfold newline? at h
  split at h
  · cases h
    exact Nat.lt_succ_self _
  · cases h
    simp only [List.length_cons]
    omega
  · cases h

/-- What may close a line: space and a comment, and then a line end or the end of the text. -/
def lineEnd? (text : List Char) : Option (List Char) :=
  match skipComment (skipSpace text) with
  | [] => some []
  | text => newline? text

theorem skipSpace_length_le (text : List Char) : (skipSpace text).length ≤ text.length :=
  (List.dropWhile_suffix isSpace).length_le

theorem skipComment_length_le (text : List Char) : (skipComment text).length ≤ text.length := by
  unfold skipComment
  split
  · rename_i rest
    have := (List.dropWhile_suffix isPlain (l := rest)).length_le
    simp only [List.length_cons]
    omega
  · exact Nat.le_refl _

def skipLines (text : List Char) : List Char :=
  match _h : newline? (skipComment (skipSpace text)) with
  | some rest => skipLines rest
  | none => skipComment (skipSpace text)
termination_by text.length
decreasing_by
  have := newline?_length _h
  have := skipComment_length_le (skipSpace text)
  have := skipSpace_length_le text
  omega

theorem lineEnd?_length_le {text rest : List Char} (h : lineEnd? text = some rest) :
    rest.length ≤ text.length := by
  have h₁ := skipComment_length_le (skipSpace text)
  have h₂ := skipSpace_length_le text
  unfold lineEnd? at h
  split at h
  · cases h
    exact Nat.zero_le _
  · have := newline?_length h
    omega

theorem skipLines_length_le (text : List Char) : (skipLines text).length ≤ text.length := by
  have h₁ := skipComment_length_le (skipSpace text)
  have h₂ := skipSpace_length_le text
  fun_induction skipLines text with
  | case1 text rest h ih =>
    have := newline?_length h
    have := ih (skipComment_length_le _) (skipSpace_length_le _)
    omega
  | case2 text h => omega

section Front

variable {c : Char} {text rest : List Char}

theorem length_lt_of_skipSpace (h : skipSpace text = c :: rest) : rest.length < text.length := by
  have hle := skipSpace_length_le text
  rw [h, List.length_cons] at hle
  exact hle

theorem length_lt_of_skipLines (h : skipLines text = c :: rest) : rest.length < text.length := by
  have hle := skipLines_length_le text
  rw [h, List.length_cons] at hle
  exact hle

end Front

end JsonQuery.Toml
