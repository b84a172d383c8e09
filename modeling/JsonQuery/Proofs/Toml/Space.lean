import JsonQuery.Proofs.Text.Reading
import JsonQuery.Proofs.Toml.Grammar

/-!
What stands between the parts of a document. The readers skip what the grammar writes there.
-/

namespace JsonQuery.Toml

theorem skipSpace_append {p : List Char} (hp : Spaces p) (rest : List Char) :
    skipSpace (p ++ rest) = skipSpace rest := by
  rw [skipSpace, List.dropWhile_append_of_pos hp, skipSpace]

theorem skipSpace_cons {c : Char} (h : isSpace c = false) (rest : List Char) :
    skipSpace (c :: rest) = c :: rest :=
  List.dropWhile_cons_of_neg (by simp [h])

theorem isSpace_cases {c : Char} (h : isSpace c = true) : c = ' ' ∨ c = '\t' := by
  simpa [isSpace] using h

theorem forall_head?_append {P : Char → Prop} {p rest : List Char} (hp : ∀ c ∈ p, P c)
    (hr : ∀ c ∈ rest.head?, P c) : ∀ c ∈ (p ++ rest).head?, P c := by
  cases p with
  | nil => exact hr
  | cons d p =>
    rintro _ ⟨⟩
    exact hp d List.mem_cons_self

theorem skipSpace_of_head {text : List Char} (h : ∀ c ∈ text.head?, isSpace c = false) :
    skipSpace text = text := by
  cases text with
  | nil => rfl
  | cons c text => exact skipSpace_cons (h c rfl) text

theorem skipComment_of_head {text : List Char} (h : ∀ c ∈ text.head?, c ≠ '#') :
    skipComment text = text := by
  cases text with
  | nil => rfl
  | cons c text =>
    rw [skipComment]
    rintro _ ⟨⟩
    exact h '#' rfl rfl

theorem newline?_of_head {text : List Char} (h : ∀ c ∈ text.head?, c ≠ '\n' ∧ c ≠ '\r') :
    newline? text = none := by
  rw [newline?]
  · rintro rest rfl
    exact (h '\n' rfl).1 rfl
  · rintro rest rfl
    exact (h '\r' rfl).2 rfl

theorem LineBreak.newline?_append {b : List Char} (h : LineBreak b) (rest : List Char) :
    newline? (b ++ rest) = some rest := by
  cases h <;> rfl

theorem LineBreak.head {b : List Char} (h : LineBreak b) (rest : List Char) :
    ∀ c ∈ (b ++ rest).head?, c = '\n' ∨ c = '\r' := by
  cases h <;> simp

theorem ClosingText.skip {s rest : List Char} (hs : ClosingText s)
    (hr : ∀ c ∈ rest.head?, c = '\n' ∨ c = '\r') : skipComment (skipSpace (s ++ rest)) = rest := by
  cases hs with
  | space hp =>
    rw [skipSpace_append hp, skipSpace_of_head, skipComment_of_head]
    · intro c hc
      rcases hr c hc with rfl | rfl <;> decide
    · intro c hc
      rcases hr c hc with rfl | rfl <;> rfl
  | @comment p s hp hs =>
    rw [List.append_assoc, skipSpace_append hp, List.cons_append, skipSpace_cons rfl, skipComment,
      List.dropWhile_append_of_pos hs]
    cases rest with
    | nil => rfl
    | cons c rest =>
      apply List.dropWhile_cons_of_neg
      rcases hr c rfl with rfl | rfl <;> decide

theorem ClosingText.skip_last {s : List Char} (hs : ClosingText s) :
    skipComment (skipSpace s) = [] := by
  have hskip : skipComment (skipSpace (s ++ [])) = [] := hs.skip (by simp)
  rwa [List.append_nil] at hskip

theorem lineEnd?_break {s b : List Char} (hs : ClosingText s) (hb : LineBreak b)
    (rest : List Char) : lineEnd? (s ++ (b ++ rest)) = some rest := by
  rw [lineEnd?, hs.skip (hb.head rest)]
  cases hb <;> rfl

theorem lineEnd?_last {s : List Char} (hs : ClosingText s) : lineEnd? s = some [] := by
  rw [lineEnd?, hs.skip_last]

theorem skipLines_break {s b : List Char} (hs : ClosingText s) (hb : LineBreak b)
    (rest : List Char) : skipLines (s ++ (b ++ rest)) = skipLines rest := by
  have hnewline : newline? (skipComment (skipSpace (s ++ (b ++ rest)))) = some rest := by
    rw [hs.skip (hb.head rest), hb.newline?_append]
  rw [skipLines]
  split
  · rename_i heq
    rw [hnewline] at heq
    cases heq
    rfl
  · rename_i heq
    rw [hnewline] at heq
    cases heq

theorem skipLines_of_newline? {text : List Char}
    (h : newline? (skipComment (skipSpace text)) = none) :
    skipLines text = skipComment (skipSpace text) := by
  rw [skipLines]
  split
  · rename_i heq
    rw [h] at heq
    cases heq
  · rfl

theorem skipLines_last {s : List Char} (hs : ClosingText s) : skipLines s = [] := by
  rw [skipLines_of_newline?, hs.skip_last]
  rw [hs.skip_last]
  rfl

/-- A character in front of which nothing is skipped. -/
def isSolid (c : Char) : Bool :=
  !isSpace c && c != '#' && c != '\n' && c != '\r'

/-- A class of characters in front of which nothing is skipped. -/
theorem isSolid_of_class {opens : Char → Bool} (h : [' ', '\t', '#', '\n', '\r'].all (!opens ·))
    {c : Char} (hc : opens c = true) : isSolid c = true := by
  have hne : ∀ c' ∈ [' ', '\t', '#', '\n', '\r'], c ≠ c' := by
    rintro c' hmem rfl
    have hc' := List.all_eq_true.mp h c hmem
    simp [hc] at hc'
  simp only [List.forall_mem_cons] at hne
  simp [isSolid, isSpace, hne.1, hne.2.1, hne.2.2.1, hne.2.2.2.1, hne.2.2.2.2.1]

theorem skipSpace_solid {c : Char} (h : isSolid c = true) (rest : List Char) :
    skipSpace (c :: rest) = c :: rest := by
  simp only [isSolid, Bool.and_eq_true, Bool.not_eq_true'] at h
  exact skipSpace_cons h.1.1.1 rest

theorem skipLines_append {p : List Char} (hp : BlankText p) {c : Char} (hc : isSolid c = true)
    (rest : List Char) : skipLines (p ++ c :: rest) = c :: rest := by
  simp only [isSolid, Bool.and_eq_true, Bool.not_eq_true', bne_iff_ne, ne_eq] at hc
  induction hp with
  | @space p hp =>
    have hskip : skipComment (skipSpace (p ++ c :: rest)) = c :: rest := by
      rw [skipSpace_append hp, skipSpace_cons hc.1.1.1, skipComment_of_head]
      rintro _ ⟨⟩
      exact hc.1.1.2
    rw [skipLines_of_newline?, hskip]
    rw [hskip, newline?_of_head]
    rintro _ ⟨⟩
    exact ⟨hc.1.2, hc.2⟩
  | line hs hb _ ih => rw [List.append_assoc, List.append_assoc, skipLines_break hs hb, ih]

def closesItem (c : Char) : Bool :=
  c == '#' || c == '\n' || c == '\r' || c == ',' || c == ']' || c == '}'

/-- Space, and then something that closes an item or the end. -/
def Ends (rest : List Char) : Prop := ∀ c ∈ (skipSpace rest).head?, closesItem c = true

theorem Ends.head {rest : List Char} (h : Ends rest) :
    ∀ c ∈ rest.head?, isSpace c = true ∨ closesItem c = true := by
  cases rest with
  | nil => simp
  | cons c rest =>
    rintro _ ⟨⟩
    cases hc : isSpace c with
    | true => exact .inl rfl
    | false =>
      rw [Ends, skipSpace_cons hc] at h
      exact .inr (h c rfl)

theorem Ends.of_spaces {p rest : List Char} (hp : Spaces p) (h : Ends rest) : Ends (p ++ rest) := by
  rw [Ends, skipSpace_append hp]
  exact h

theorem ends_cons {c : Char} (hc : closesItem c = true) (hspace : isSpace c = false)
    (rest : List Char) : Ends (c :: rest) := by
  rw [Ends, skipSpace_cons hspace]
  rintro _ ⟨⟩
  exact hc

theorem LineBreak.ends {b : List Char} (hb : LineBreak b) (rest : List Char) :
    Ends (b ++ rest) := by
  cases hb with
  | feed => exact ends_cons rfl rfl rest
  | returnFeed => exact ends_cons rfl rfl _

theorem ClosingText.ends {s rest : List Char} (hs : ClosingText s) (hr : Ends rest) :
    Ends (s ++ rest) := by
  cases hs with
  | space hp => exact hr.of_spaces hp
  | comment hp =>
    rw [List.append_assoc]
    exact (ends_cons rfl rfl _).of_spaces hp

theorem ClosingText.ends_last {s : List Char} (hs : ClosingText s) : Ends s := by
  have hends : Ends (s ++ []) := hs.ends (by simp [Ends, skipSpace])
  rwa [List.append_nil] at hends

theorem BlankText.ends {q rest : List Char} (hq : BlankText q) (hr : Ends rest) :
    Ends (q ++ rest) := by
  induction hq with
  | space hp => exact hr.of_spaces hp
  | line hs hb =>
    rw [List.append_assoc, List.append_assoc]
    exact hs.ends (hb.ends _)

end JsonQuery.Toml
