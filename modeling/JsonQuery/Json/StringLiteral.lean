import JsonQuery.Json.Fault
import JsonQuery.Text.Hex

/-!
String literals of JSON documents.
-/

namespace JsonQuery.Json

/-- The character that a letter stands for after a backslash. -/
def unescape? : Char → Option Char
  | '"' => some '"'
  | '\\' => some '\\'
  | '/' => some '/'
  | 'b' => some '\x08'
  | 'f' => some '\x0c'
  | 'n' => some '\n'
  | 'r' => some '\r'
  | 't' => some '\t'
  | _ => none

/-- The characters up to the closing quote, after those in `done`, the last of which comes
first. -/
def stringTail (done : List Char) (text : List Char) : Except Fault (String × List Char) :=
  match text with
  | [] => unexpected .closingQuote []
  | '"' :: rest => .ok (String.ofList done.reverse, rest)
  | '\\' :: [] => unexpected .escape []
  | '\\' :: 'u' :: rest =>
    match _h : Text.escapedUnits rest with
    | .ok (c, rest') => stringTail (c :: done) rest'
    | .error (.digits place) => .error ⟨.unicode, place⟩
    | .error .unpaired => .error ⟨.unicode, text⟩
  | '\\' :: letter :: rest =>
    match unescape? letter with
    | some c => stringTail (c :: done) rest
    | none => .error ⟨.escape, text⟩
  | c :: rest =>
    if c.toNat < 0x20 then .error ⟨.control, text⟩ else stringTail (c :: done) rest
  termination_by text.length
  decreasing_by
    · have := Text.escapedUnits_length _h
      simp only [List.length_cons]
      omega
    all_goals simp only [List.length_cons]; omega

theorem stringTail_length {done text rest : List Char} {s : String}
    (h : stringTail done text = .ok (s, rest)) : rest.length < text.length := by
  fun_induction stringTail done text with
  | case1 => cases h
  | case2 done rest' =>
    cases h
    simp
  | case3 => cases h
  | case4 done rest₁ c rest₂ h₁ ih =>
    have := ih h
    have := Text.escapedUnits_length h₁
    simp only [List.length_cons]
    omega
  | case5 => cases h
  | case6 => cases h
  | case7 done letter rest₁ _ c _ ih =>
    have := ih h
    simp only [List.length_cons]
    omega
  | case8 => cases h
  | case9 => cases h
  | case10 done c rest₁ _ _ _ _ _ ih =>
    have := ih h
    simp only [List.length_cons]
    omega

end JsonQuery.Json
