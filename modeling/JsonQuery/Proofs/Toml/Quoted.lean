import JsonQuery.Proofs.Toml.Space

/-!
Strings: the readers take what the grammar writes, whatever stands behind it. Behind a string of
several lines there is no further quote.
-/

namespace JsonQuery.Toml

theorem hexNumber?_append {count : Nat} {ds : List Char} {values : List Nat}
    (hlength : ds.length = count) (hd : ds.mapM Text.hexValue? = some values) (rest : List Char) :
    hexNumber? count (ds ++ rest) = some (values.foldl (fun n d => 16 * n + d) 0, rest) := by
  have hle : count ≤ (ds ++ rest).length := by
    rw [List.length_append, hlength]
    exact Nat.le_add_right _ _
  simp only [hexNumber?, hle, if_true, List.take_left' hlength, List.drop_left' hlength, hd]
  rfl

theorem escape?_append {s : List Char} {c : Char} (h : EscapeText s c) (rest : List Char) :
    escape? (s ++ rest) = some (c, rest) := by
  cases h with
  | @letter letter _ h =>
    have hshort : letter ≠ 'u' := by rintro rfl; cases h
    have hlong : letter ≠ 'U' := by rintro rfl; cases h
    rw [List.singleton_append, escape?]
    · rw [h]
      rfl
    · exact hshort
    · exact hlong
  | four hlength hd hc =>
    simp only [List.cons_append, escape?, hexNumber?_append hlength hd, hc, Option.bind_eq_bind,
      Option.bind_some, Option.pure_def]
  | eight hlength hd hc =>
    simp only [List.cons_append, escape?, hexNumber?_append hlength hd, hc, Option.bind_eq_bind,
      Option.bind_some, Option.pure_def]

theorem basicRest?_append {s cs : List Char} (h : BasicText s cs) (rest : List Char) :
    basicRest? (s ++ '"' :: rest) = some (cs, rest) := by
  induction h with
  | nil => rw [List.nil_append, basicRest?]
  | plain hc hquote hbackslash _ ih =>
    rw [List.cons_append, basicRest?]
    · rw [if_pos hc, ih]
      rfl
    · exact hquote
    · exact hbackslash
  | escape hs _ ih =>
    rw [List.cons_append, List.append_assoc, basicRest?, escape?_append hs]
    simp only [ih, Option.bind_eq_bind, Option.bind_some, Option.pure_def]

theorem literalRest?_append {cs : List Char} (h : ∀ c ∈ cs, c ≠ '\'' ∧ isPlain c = true)
    (rest : List Char) : literalRest? (cs ++ '\'' :: rest) = some (cs, rest) := by
  have htake : (cs ++ '\'' :: rest).takeWhile (fun c => c != '\'' && isPlain c) = cs := by
    refine (Text.takeWhile_append_of_head ?_ ?_).1
    · intro c hc
      simp [h c hc]
    · simp
  simp only [literalRest?, htake, List.drop_left]

theorem quotedLine?_append {s cs : List Char} (h : QuotedText s cs) (rest : List Char) :
    quotedLine? (s ++ rest) = some (cs, rest) := by
  cases h with
  | basic hs =>
    rw [List.cons_append, List.append_assoc, List.singleton_append, quotedLine?,
      basicRest?_append hs]
  | literal h =>
    rw [List.cons_append, List.append_assoc, List.singleton_append, quotedLine?,
      literalRest?_append h]

variable {quote : Char}

theorem Solid.append {s : List Char} (hs : Solid s) (hne : s ≠ []) (rest : List Char) :
    Solid (s ++ rest) := by
  cases s with
  | nil => exact absurd rfl hne
  | cons c s => exact hs

theorem EscapeText.solid {s : List Char} {c : Char} (h : EscapeText s c) :
    s ≠ [] ∧ Solid s := by
  cases h with
  | four => exact ⟨List.cons_ne_nil _ _, by simp [Solid]⟩
  | eight => exact ⟨List.cons_ne_nil _ _, by simp [Solid]⟩
  | letter h =>
    refine ⟨List.cons_ne_nil _ _, ?_⟩
    rintro _ ⟨⟩
    refine ⟨?_, ?_, ?_, ?_⟩ <;> rintro rfl <;> cases h

theorem joinedLine?_of_solid {text : List Char} (h : Solid text) : joinedLine? text = none := by
  have hskip : skipSpace text = text := by
    apply skipSpace_of_head
    intro c hc
    simp [isSpace, (h c hc).1, (h c hc).2.1]
  have hnewline : newline? text = none := newline?_of_head fun c hc => (h c hc).2.2
  simp only [joinedLine?, hskip, hnewline, Option.bind_eq_bind, Option.bind_none]

theorem joinedLine?_go_append {q t : List Char} (hq : GapText q) (ht : Solid t) :
    joinedLine?.go (q ++ t) = t := by
  induction hq with
  | nil =>
    rw [List.nil_append, joinedLine?.go]
    · rintro rest rfl
      exact (ht ' ' rfl).1 rfl
    · rintro rest rfl
      exact (ht '\t' rfl).2.1 rfl
    · rintro rest rfl
      exact (ht '\n' rfl).2.2.1 rfl
    · rintro rest rfl
      exact (ht '\r' rfl).2.2.2 rfl
  | space hc _ ih =>
    rcases isSpace_cases hc with rfl | rfl
    · rw [List.cons_append, joinedLine?.go, ih]
    · rw [List.cons_append, joinedLine?.go, ih]
  | lineBreak hb _ ih =>
    cases hb with
    | feed => rw [List.append_assoc, List.singleton_append, joinedLine?.go, ih]
    | returnFeed => rw [List.append_assoc, List.cons_append, List.singleton_append,
        joinedLine?.go, ih]

theorem joinedLine?_append {p b q t : List Char} (hp : Spaces p) (hb : LineBreak b)
    (hq : GapText q) (ht : Solid t) : joinedLine? (p ++ (b ++ (q ++ t))) = some t := by
  have hskip : skipSpace (p ++ (b ++ (q ++ t))) = b ++ (q ++ t) := by
    rw [skipSpace_append hp, skipSpace_of_head]
    intro c hc
    rcases hb.head _ c hc with rfl | rfl <;> rfl
  simp only [joinedLine?, hskip, hb.newline?_append, Option.bind_eq_bind, Option.bind_some,
    joinedLine?_go_append hq ht, Option.pure_def]

/-- A quote is no line end, no backslash, and plain. -/
theorem multilinePart?_quote (hquote : quote = '"' ∨ quote = '\'') (rest : List Char) :
    multilinePart? quote (quote :: rest) = some ([quote], rest) := by
  rcases hquote with rfl | rfl <;> rfl

theorem not_break_of_isPlain {c : Char} (h : isPlain c = true) : c ≠ '\n' ∧ c ≠ '\r' := by
  constructor <;> rintro rfl <;> cases h

theorem PartText.multilinePart?_append {s cs : List Char} (h : PartText quote s cs)
    (rest : List Char) : multilinePart? quote (s ++ rest) = some (cs, rest) := by
  cases h with
  | lineBreak hb => simp only [multilinePart?, hb.newline?_append]
  | @plain c hc _ hbackslash =>
    have hnewline : newline? (c :: rest) = none := by
      apply newline?_of_head
      rintro _ ⟨⟩
      exact not_break_of_isPlain hc
    rw [List.singleton_append, multilinePart?, hnewline]
    simp only [if_neg (not_and.mpr hbackslash), hc, if_true]
  | @escape s _ hquote hs =>
    obtain ⟨hne, hsolid⟩ := hs.solid
    have hjoined := joinedLine?_of_solid (hsolid.append hne rest)
    have hnewline : newline? ('\\' :: (s ++ rest)) = none := newline?_of_head (by simp)
    rw [List.cons_append, multilinePart?, hnewline]
    simp only [hquote, and_self, if_true, hjoined, escape?_append hs, Option.bind_eq_bind,
      Option.bind_some, Option.pure_def]

theorem PartText.head {s cs : List Char} (h : PartText quote s cs)
    (hquote : quote = '"' ∨ quote = '\'') (rest : List Char) :
    ∀ c ∈ (s ++ rest).head?, c ≠ quote := by
  have hbreak : ∀ c, c = '\n' ∨ c = '\r' → c ≠ quote := by
    rintro c (rfl | rfl) <;> rcases hquote with rfl | rfl <;> decide
  cases h with
  | lineBreak hb => exact fun c hc => hbreak c (hb.head rest c hc)
  | plain _ hne =>
    rintro _ ⟨⟩
    exact hne
  | escape h =>
    rintro _ ⟨⟩
    subst h
    decide

theorem takeWhile_quotes {k : Nat} {rest : List Char} (hr : ∀ c ∈ rest.head?, c ≠ quote) :
    (List.replicate k quote ++ rest).takeWhile (· = quote) = List.replicate k quote := by
  refine (Text.takeWhile_append_of_head ?_ ?_).1
  · simp
  · simpa using hr

theorem closing?_quotes {k : Nat} (hk : k ≤ 2) {rest : List Char}
    (hr : ∀ c ∈ rest.head?, c ≠ quote) :
    closing? quote (List.replicate (k + 3) quote ++ rest) =
      some (List.replicate k quote, rest) := by
  have hextra : min 2 (k + 3 - 3) = k := by omega
  have hcount : ¬ k + 3 < 3 := by omega
  simp only [closing?, takeWhile_quotes hr, List.length_replicate, hcount, if_false, hextra]
  rw [List.drop_left' (by simp)]

theorem closing?_none {k : Nat} (hk : k ≤ 2) {rest : List Char}
    (hr : ∀ c ∈ rest.head?, c ≠ quote) :
    closing? quote (List.replicate k quote ++ rest) = none := by
  have hcount : k < 3 := by omega
  simp only [closing?, takeWhile_quotes hr, List.length_replicate, hcount, if_true]

theorem multilineRest?_part {text part rest content rest' : List Char}
    (hclosing : closing? quote text = none) (hpart : multilinePart? quote text = some (part, rest))
    (hrest : multilineRest? quote rest = some (content, rest')) :
    multilineRest? quote text = some (part ++ content, rest') := by
  rw [multilineRest?, hclosing]
  split
  · rename_i heq
    cases heq
  · split
    · rename_i heq
      rw [hpart] at heq
      cases heq
      rw [hrest]
      rfl
    · rename_i heq
      rw [hpart] at heq
      cases heq

/-- Up to two quotes in front of something else belong to the string. -/
theorem multilineRest?_quotes (hquote : quote = '"' ∨ quote = '\'') {k : Nat} (hk : k ≤ 2)
    {text content rest : List Char} (hhead : ∀ c ∈ text.head?, c ≠ quote)
    (h : multilineRest? quote text = some (content, rest)) :
    multilineRest? quote (List.replicate k quote ++ text) =
      some (List.replicate k quote ++ content, rest) := by
  induction k with
  | zero => exact h
  | succ k ih =>
    have hinner := ih (by omega)
    have hclosing := closing?_none hk hhead
    rw [List.replicate_succ, List.cons_append] at hclosing ⊢
    have hread := multilineRest?_part hclosing (multilinePart?_quote hquote _) hinner
    exact hread

theorem MultilineText.ne_nil {s cs : List Char} (h : MultilineText quote s cs) : s ≠ [] := by
  cases h with
  | close => simp
  | part _ hs =>
    cases hs with
    | lineBreak hb => cases hb <;> simp
    | plain => simp
    | escape => simp
  | joined => simp

theorem MultilineText.read {s cs rest : List Char} (h : MultilineText quote s cs)
    (hquote : quote = '"' ∨ quote = '\'') (hr : ∀ c ∈ rest.head?, c ≠ quote) :
    multilineRest? quote (s ++ rest) = some (cs, rest) := by
  induction h with
  | close hk =>
    have hclosing := closing?_quotes hk hr
    rw [multilineRest?]
    split
    · rename_i heq
      rw [hclosing] at heq
      cases heq
      rfl
    · rename_i heq
      rw [hclosing] at heq
      cases heq
  | part hk hs _ ih =>
    rw [List.append_assoc, List.append_assoc]
    apply multilineRest?_quotes hquote hk (hs.head hquote _)
    exact multilineRest?_part (closing?_none (Nat.zero_le 2) (hs.head hquote _))
      (hs.multilinePart?_append _) ih
  | @joined k p b q t ds hquote' hk hp hb hq hsolid ht ih =>
    have hhead : ∀ c ∈ ('\\' :: (p ++ (b ++ (q ++ (t ++ rest))))).head?, c ≠ quote := by
      rintro _ ⟨⟩
      subst hquote'
      decide
    have hjoined := joinedLine?_append hp hb hq (hsolid.append ht.ne_nil rest)
    have hpart : multilinePart? quote ('\\' :: (p ++ (b ++ (q ++ (t ++ rest))))) =
        some ([], t ++ rest) := by
      have hnewline : newline? ('\\' :: (p ++ (b ++ (q ++ (t ++ rest))))) = none :=
        newline?_of_head (by simp)
      rw [multilinePart?, hnewline]
      simp only [hquote', and_self, if_true, hjoined]
    simp only [List.append_assoc, List.cons_append]
    apply multilineRest?_quotes hquote hk hhead
    exact multilineRest?_part (closing?_none (Nat.zero_le 2) hhead) hpart ih

theorem closesItem_quote (hquote : quote = '"' ∨ quote = '\'') {rest : List Char} (hr : Ends rest) :
    ∀ c ∈ rest.head?, c ≠ quote := by
  rintro c hc rfl
  rcases hr.head c hc with hspace | hclose
  · rcases hquote with rfl | rfl <;> cases hspace
  · rcases hquote with rfl | rfl <;> cases hclose

/-- A string on one line is not taken for the beginning of one of several lines. -/
theorem QuotedText.string?_append {s cs rest : List Char} (hs : QuotedText s cs)
    (hr : Ends rest) : string? (s ++ rest) = some (cs, rest) := by
  have hline := quotedLine?_append hs rest
  rw [string?]
  · exact hline
  · intro rest'' heq
    cases hs with
    | literal => cases heq
    | basic hb =>
      cases hb with
      | nil =>
        simp only [List.nil_append, List.cons_append, List.cons.injEq, true_and] at heq
        exact closesItem_quote (.inl rfl) hr _ (by rw [heq]; rfl) rfl
      | plain _ hne => simp [hne] at heq
      | escape => simp at heq
  · intro rest'' heq
    cases hs with
    | basic => cases heq
    | literal h =>
      cases cs with
      | nil =>
        simp only [List.nil_append, List.cons_append, List.cons.injEq, true_and] at heq
        exact closesItem_quote (.inr rfl) hr _ (by rw [heq]; rfl) rfl
      | cons c cs => simp [(h c List.mem_cons_self).1] at heq

theorem string?_lines (hquote : quote = '"' ∨ quote = '\'') (text : List Char) :
    string? (quote :: quote :: quote :: text) = multiline? quote text := by
  rcases hquote with rfl | rfl <;> rfl

theorem StringText.string?_append {s cs rest : List Char} (hs : StringText s cs)
    (hr : Ends rest) : string? (s ++ rest) = some (cs, rest) := by
  cases hs with
  | line hs => exact hs.string?_append hr
  | @lines quote s _ hquote hs hbreak =>
    have hnewline : newline? (s ++ rest) = none := by
      apply newline?_of_head
      cases s with
      | nil => exact absurd rfl hs.ne_nil
      | cons c s => exact hbreak
    rw [List.cons_append, List.cons_append, List.cons_append, string?_lines hquote, multiline?,
      hnewline, Option.getD_none, hs.read hquote (closesItem_quote hquote hr)]
  | linesBelow hquote hb hs =>
    rw [List.cons_append, List.cons_append, List.cons_append, List.append_assoc,
      string?_lines hquote, multiline?, hb.newline?_append, Option.getD_some,
      hs.read hquote (closesItem_quote hquote hr)]

end JsonQuery.Toml
