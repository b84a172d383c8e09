import JsonQuery.Toml.Item
import JsonQuery.Toml.Quoted

/-!
Keys: bare or quoted on one line, and dotted keys made of them.
-/

namespace JsonQuery.Toml

def isBare (c : Char) : Bool := c.isAlphanum || c == '_' || c == '-'

def plainKey? (text : List Char) : Option (String × List Char) :=
  match quotedLine? text with
  | some (key, rest) => some (String.ofList key, rest)
  | none =>
    let key := text.takeWhile isBare
    if key = [] then none else some (String.ofList key, text.drop key.length)

theorem plainKey?_length {key : String} {text rest : List Char}
    (h : plainKey? text = some (key, rest)) : rest.length < text.length := by
  simp only [plainKey?] at h
  split at h
  · rename_i h'
    cases h
    exact quotedLine?_length h'
  · split at h
    · cases h
    · rename_i hk
      cases h
      have := List.length_pos_iff.mpr hk
      have := (List.takeWhile_prefix (l := text) isBare).length_le
      simp only [List.length_drop]
      omega

/-- The keys that follow a key, each behind a dot, and the text after the space behind the last. -/
def dottedRest? (text : List Char) : Option (List String × List Char) :=
  match _h : skipSpace text with
  | '.' :: rest =>
    match _hk : plainKey? (skipSpace rest) with
    | some (key, rest') => do
      let (keys, rest) ← dottedRest? rest'
      return (key :: keys, rest)
    | none => none
  | rest => some ([], rest)
termination_by text.length
decreasing_by
  have := skipSpace_length_le text
  have := skipSpace_length_le rest
  have := plainKey?_length _hk
  simp only [_h, List.length_cons] at *
  omega

theorem dottedRest?_length_le {keys : List String} {text rest : List Char}
    (h : dottedRest? text = some (keys, rest)) : rest.length ≤ text.length := by
  fun_induction dottedRest? text generalizing keys with
  | case1 text rest₁ hs key rest₂ hk ih =>
    obtain ⟨⟨others, rest₃⟩, hread, h⟩ := Option.bind_eq_some_iff.mp h
    cases h
    have := ih hread
    have := plainKey?_length hk
    have := skipSpace_length_le rest₁
    have := length_lt_of_skipSpace hs
    omega
  | case2 => cases h
  | case3 text =>
    cases h
    exact skipSpace_length_le text

/-- The most keys that a dotted key may have. -/
def maxKeys : Nat := 79

/-- A dotted key at the front of a text, with the space around it. -/
def key? (text : List Char) : Option (DottedKey × List Char) := do
  let (first, rest) ← plainKey? (skipSpace text)
  let (others, rest) ← dottedRest? rest
  if others.length < maxKeys then return (.ofKeys first others, rest) else none

theorem key?_length {key : DottedKey} {text rest : List Char}
    (h : key? text = some (key, rest)) : rest.length < text.length := by
  obtain ⟨⟨first, rest₁⟩, hfirst, h⟩ := Option.bind_eq_some_iff.mp h
  obtain ⟨⟨others, rest₂⟩, hothers, h⟩ := Option.bind_eq_some_iff.mp h
  dsimp only at h
  split at h
  · cases h
    have := plainKey?_length hfirst
    have := dottedRest?_length_le hothers
    have := skipSpace_length_le text
    omega
  · cases h

end JsonQuery.Toml
