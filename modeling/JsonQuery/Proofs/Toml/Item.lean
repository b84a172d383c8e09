import JsonQuery.Proofs.Toml.Key
import JsonQuery.Proofs.Toml.Scalar

/-!
Items: the reader of a depth takes what the grammar nests no deeper, where the item is closed behind
it.
-/

namespace JsonQuery.Toml

def opensItem (c : Char) : Bool :=
  isWordChar c || c == '"' || c == '\'' || c == '[' || c == '{'

theorem isSolid_of_opensItem {c : Char} (h : opensItem c = true) : isSolid c = true :=
  isSolid_of_class (by decide) h

theorem StringText.exists_cons {s cs : List Char} (h : StringText s cs) :
    ∃ c t, s = c :: t ∧ (c = '"' ∨ c = '\'') := by
  cases h with
  | lines hquote => exact ⟨_, _, rfl, hquote⟩
  | linesBelow hquote => exact ⟨_, _, rfl, hquote⟩
  | line hs =>
    cases hs with
    | basic => exact ⟨_, _, rfl, .inl rfl⟩
    | literal => exact ⟨_, _, rfl, .inr rfl⟩

/-- Only words begin with a character of words. -/
theorem itemWith?_word {c : Char} {t : List Char} (hc : isWordChar c = true)
    (inner : Option ItemReader) : itemWith? inner (c :: t) = scalarItem? (c :: t) := by
  have hfront : ∀ c' rest, isWordChar c' = false → c :: t ≠ c' :: rest := by
    rintro c' rest hc' ⟨⟩
    rw [hc] at hc'
    cases hc'
  have hstring : string? (c :: t) = none := by
    rw [string?, quotedLine?]
    · exact fun _ => hfront _ _ rfl
    · exact fun _ => hfront _ _ rfl
    · exact fun _ => hfront _ _ rfl
    · exact fun _ => hfront _ _ rfl
  rw [itemWith?]
  · rw [hstring]
  · exact fun _ => hfront _ _ rfl
  · exact fun _ => hfront _ _ rfl

theorem StringText.read {s cs rest : List Char} (h : StringText s cs) (hr : Ends rest)
    (inner : Option ItemReader) :
    itemWith? inner (s ++ rest) = some (.string (String.ofList cs), rest) := by
  have hstring := h.string?_append hr
  obtain ⟨c, t, rfl, hc⟩ := h.exists_cons
  rw [itemWith?]
  · rw [hstring]
  · rintro rest' ⟨⟩
    rcases hc with hc | hc <;> cases hc
  · rintro rest' ⟨⟩
    rcases hc with hc | hc <;> cases hc

theorem ScalarText.read {s rest : List Char} {item : Item} (h : ScalarText s item)
    (hr : Ends rest) (inner : Option ItemReader) :
    itemWith? inner (s ++ rest) = some (item, rest) := by
  rcases h.cases_word with ⟨cs, hs, rfl⟩ | ⟨⟨c, t, rfl, hc⟩, hscalar⟩
  · exact hs.read hr inner
  · rw [List.cons_append, itemWith?_word hc, ← List.cons_append, hscalar rest hr]

theorem ScalarText.exists_cons {s : List Char} {item : Item} (h : ScalarText s item) :
    ∃ c t, s = c :: t ∧ opensItem c = true := by
  rcases h.cases_word with ⟨cs, hs, -⟩ | ⟨⟨c, t, rfl, hc⟩, -⟩
  · obtain ⟨c, t, rfl, hc⟩ := hs.exists_cons
    refine ⟨c, t, rfl, ?_⟩
    rcases hc with rfl | rfl <;> rfl
  · exact ⟨c, t, rfl, by simp [opensItem, hc]⟩

theorem ItemText.exists_cons {depth : Nat} {s : List Char} {item : Item}
    (h : ItemText depth s item) : ∃ c t, s = c :: t ∧ opensItem c = true := by
  cases depth with
  | zero => exact ScalarText.exists_cons h
  | succ depth =>
    cases h with
    | scalar hs => exact hs.exists_cons
    | array => exact ⟨_, _, rfl, rfl⟩
    | emptyTable => exact ⟨_, _, rfl, rfl⟩
    | table => exact ⟨_, _, rfl, rfl⟩

/-- A reader takes the items of a kind where they are closed behind, and these begin as items do. -/
structure Takes (reader : ItemReader) (IsItem : List Char → Item → Prop) : Prop where
  exists_cons : ∀ s item, IsItem s item → ∃ c t, s = c :: t ∧ opensItem c = true
  read : ∀ s item rest, IsItem s item → Ends rest → reader.read (s ++ rest) = some (item, rest)

variable {reader : ItemReader} {IsItem : List Char → Item → Prop}

theorem elements?_close {p : List Char} (hp : BlankText p) (reader : ItemReader)
    (rest : List Char) : elements? reader (p ++ ']' :: rest) = some ([], rest) := by
  have hskip := skipLines_append hp (rfl : isSolid ']' = true) rest
  rw [elements?]
  split
  · rename_i heq
    rw [hskip] at heq
    cases heq
    rfl
  · rename_i hne
    exact absurd hskip (hne rest)

/-- The reader without the proofs that it ends by, in front of an element. -/
theorem elements?_element {text front rest : List Char} {element : Item}
    (hskip : skipLines text = front) (hfront : ∀ rest, front ≠ ']' :: rest)
    (hread : reader.read front = some (element, rest)) :
    elements? reader text =
      match skipLines rest with
      | ']' :: rest => some ([element], rest)
      | ',' :: rest => (elements? reader rest).map fun read => (element :: read.1, read.2)
      | _ => none := by
  rw [elements?]
  split
  · rename_i heq
    rw [hskip] at heq
    exact absurd heq (hfront _)
  · split
    · rename_i heq
      rw [hskip, hread] at heq
      cases heq
    · rename_i rest' heq
      rw [hskip, hread] at heq
      cases heq
      split
      · rename_i heq
        simp only [heq]
      · rename_i heq
        simp only [heq]
        cases elements? reader _ <;> rfl
      · rename_i hclose hcomma
        split
        · exact absurd ‹_› (hclose _)
        · exact absurd ‹_› (hcomma _)
        · rfl

theorem Takes.skipLines_append (htakes : Takes reader IsItem) {p s : List Char} {item : Item}
    (hp : BlankText p) (hs : IsItem s item) (text : List Char) :
    skipLines (p ++ (s ++ text)) = s ++ text := by
  obtain ⟨c, t, rfl, hc⟩ := htakes.exists_cons s item hs
  exact Toml.skipLines_append hp (isSolid_of_opensItem hc) (t ++ text)

theorem Takes.append_ne (htakes : Takes reader IsItem) {s : List Char} {item : Item}
    (hs : IsItem s item) (text rest : List Char) : s ++ text ≠ ']' :: rest := by
  obtain ⟨c, t, rfl, hc⟩ := htakes.exists_cons s item hs
  rintro ⟨⟩
  cases hc

theorem Takes.elements?_append (htakes : Takes reader IsItem) {s : List Char}
    {elements : List Item} (h : ElementsText IsItem s elements) (rest : List Char) :
    elements? reader (s ++ rest) = some (elements, rest) := by
  induction h with
  | close hp =>
    rw [List.append_assoc]
    exact elements?_close hp reader rest
  | @last p s q element hp hs hq =>
    have hread := htakes.read s element (q ++ ']' :: rest) hs (hq.ends (ends_cons rfl rfl rest))
    have htext : p ++ (s ++ (q ++ [']'])) ++ rest = p ++ (s ++ (q ++ ']' :: rest)) := by
      simp only [List.append_assoc, List.singleton_append]
    rw [htext, elements?_element (htakes.skipLines_append hp hs _) (htakes.append_ne hs _) hread,
      Toml.skipLines_append hq rfl rest]
    rfl
  | @cons p s q t element elements hp hs hq _ ih =>
    have hread := htakes.read s element (q ++ ',' :: (t ++ rest)) hs
      (hq.ends (ends_cons rfl rfl _))
    have htext : p ++ (s ++ (q ++ ',' :: t)) ++ rest = p ++ (s ++ (q ++ ',' :: (t ++ rest))) := by
      simp only [List.append_assoc, List.cons_append]
    rw [htext, elements?_element (htakes.skipLines_append hp hs _) (htakes.append_ne hs _) hread,
      Toml.skipLines_append hq rfl _]
    simp only [ih, Option.map_some]

theorem key?_spaces {p : List Char} (hp : Spaces p) (text : List Char) :
    key? (p ++ text) = key? text := by
  rw [key?, skipSpace_append hp, key?]

theorem assignment?_spaces {p : List Char} (hp : Spaces p) (reader : ItemReader)
    (text : List Char) : assignment? reader (p ++ text) = assignment? reader text := by
  rw [assignment?, key?_spaces hp, assignment?]

theorem AssignmentText.exists_cons {s : List Char} {assigned : Assignment}
    (h : AssignmentText IsItem s assigned) : ∃ c t, s = c :: t ∧ opensKey c = true := by
  cases h with
  | mk hs =>
    obtain ⟨c, s', rfl, hc⟩ := hs.exists_cons
    exact ⟨c, _, rfl, hc⟩

theorem PairsText.exists_cons {s : List Char} {assigned : List Assignment}
    (h : PairsText IsItem s assigned) :
    ∃ p c t, s = p ++ c :: t ∧ Spaces p ∧ opensKey c = true := by
  cases h with
  | last hp hs =>
    obtain ⟨c, s', rfl, hc⟩ := hs.exists_cons
    exact ⟨_, c, _, rfl, hp, hc⟩
  | cons hp hs =>
    obtain ⟨c, s', rfl, hc⟩ := hs.exists_cons
    exact ⟨_, c, _, rfl, hp, hc⟩

theorem pairs?_assignment {text rest : List Char} {assigned : Assignment}
    (hread : assignment? reader text = some (assigned, rest)) (members : Members) :
    pairs? reader members text =
      (members.assign? assigned.key assigned.item).bind fun members =>
        match skipSpace rest with
        | '}' :: rest => some (members, rest)
        | ',' :: rest => pairs? reader members rest
        | _ => none := by
  rw [pairs?]
  split
  · rename_i heq
    rw [hread] at heq
    cases heq
  · rename_i heq
    rw [hread] at heq
    cases heq
    cases members.assign? assigned.key assigned.item with
    | none => rfl
    | some members =>
      simp only [Option.bind_some]
      split
      · rename_i heq
        simp only [heq]
      · rename_i heq
        simp only [heq]
      · rename_i hclose hcomma
        split
        · exact absurd ‹_› (hclose _)
        · exact absurd ‹_› (hcomma _)
        · rfl

theorem Takes.assignment?_append (htakes : Takes reader IsItem) {s rest : List Char}
    {assigned : Assignment} (h : AssignmentText IsItem s assigned) (hr : Ends rest) :
    assignment? reader (s ++ rest) = some (assigned, rest) := by
  cases h with
  | @mk s p t key item hs hp ht =>
    have hread := htakes.read t item rest ht hr
    have hskip : skipSpace (p ++ t ++ rest) = t ++ rest := by
      obtain ⟨c, t', rfl, hc⟩ := htakes.exists_cons t item ht
      rw [List.append_assoc, skipSpace_append hp, List.cons_append,
        skipSpace_solid (isSolid_of_opensItem hc)]
    rw [List.append_assoc, List.cons_append, assignment?]
    simp only [key?_append hs, hskip, hread, Option.bind_eq_bind, Option.bind_some,
      Option.pure_def]

/-- The reader takes an assignment with the space around it. -/
theorem Takes.pairs?_assignment (htakes : Takes reader IsItem) {p s q : List Char}
    {assigned : Assignment} (hp : Spaces p) (hs : AssignmentText IsItem s assigned) (hq : Spaces q)
    {c : Char} (hclose : closesItem c = true) (hc : isSpace c = false) (members : Members)
    (rest : List Char) :
    pairs? reader members (p ++ (s ++ (q ++ c :: rest))) =
      (members.assign? assigned.key assigned.item).bind fun members =>
        match c :: rest with
        | '}' :: rest => some (members, rest)
        | ',' :: rest => pairs? reader members rest
        | _ => none := by
  have hskip : skipSpace (q ++ c :: rest) = c :: rest := by
    rw [skipSpace_append hq, skipSpace_cons hc]
  have hread := htakes.assignment?_append hs ((ends_cons hclose hc rest).of_spaces hq)
  rw [← assignment?_spaces hp] at hread
  rw [Toml.pairs?_assignment hread, hskip]

theorem Takes.pairs?_append (htakes : Takes reader IsItem) {s : List Char}
    {assigned : List Assignment} (h : PairsText IsItem s assigned) (members : Members)
    (rest : List Char) :
    pairs? reader members (s ++ rest) =
      (members.assignAll? assigned).map fun members => (members, rest) := by
  induction h generalizing members with
  | @last p s q assigned hp hs hq =>
    have htext : p ++ (s ++ (q ++ ['}'])) ++ rest = p ++ (s ++ (q ++ '}' :: rest)) := by
      simp only [List.append_assoc, List.singleton_append]
    rw [htext, htakes.pairs?_assignment hp hs hq rfl rfl, Members.assignAll?_cons]
    cases members.assign? assigned.key assigned.item <;> rfl
  | @cons p s q t assigned others hp hs hq _ ih =>
    have htext : p ++ (s ++ (q ++ ',' :: t)) ++ rest = p ++ (s ++ (q ++ ',' :: (t ++ rest))) := by
      simp only [List.append_assoc, List.cons_append]
    rw [htext, htakes.pairs?_assignment hp hs hq rfl rfl, Members.assignAll?_cons]
    simp only [ih, Option.map_bind]
    rfl

theorem Takes.inlineTable?_append (htakes : Takes reader IsItem) {s : List Char}
    {assigned : List Assignment} (h : PairsText IsItem s assigned) (rest : List Char) :
    inlineTable? reader (s ++ rest) =
      (Members.assignAll? [] assigned).map fun members => (members, rest) := by
  have hclose : ∀ rest', skipSpace (s ++ rest) ≠ '}' :: rest' := by
    obtain ⟨p, c, t, rfl, hp, hc⟩ := h.exists_cons
    rw [List.append_assoc, skipSpace_append hp, List.cons_append,
      skipSpace_solid (isSolid_of_opensKey hc)]
    rintro rest' ⟨⟩
    cases hc
  rw [← htakes.pairs?_append h, inlineTable?]
  split
  · exact absurd ‹_› (hclose _)
  · rfl

theorem Takes.read_nested (htakes : Takes reader IsItem) {s rest : List Char} {item : Item}
    (h : NestedText IsItem s item) (hr : Ends rest) :
    itemWith? (some reader) (s ++ rest) = some (item, rest) := by
  cases h with
  | scalar hs => exact hs.read hr (some reader)
  | array hs =>
    rw [List.cons_append, itemWith?]
    simp only [htakes.elements?_append hs, Option.bind_eq_bind, Option.bind_some, Option.pure_def]
  | @emptyTable p hp =>
    have htable : inlineTable? reader (p ++ ['}'] ++ rest) = some ([], rest) := by
      rw [inlineTable?, List.append_assoc, skipSpace_append hp, List.singleton_append,
        skipSpace_cons rfl]
      rfl
    rw [List.cons_append, itemWith?]
    simp only [htable, Option.bind_eq_bind, Option.bind_some, Option.pure_def]
  | table hs hapart =>
    rw [List.cons_append, itemWith?]
    simp only [htakes.inlineTable?_append hs, Members.assignAll?_nil hapart, Option.map_some,
      Option.bind_eq_bind, Option.bind_some, Option.pure_def]

/-- By induction on the depth, as the readers are built. -/
theorem takes_itemReader (depth : Nat) : Takes (itemReader depth) (ItemText depth) := by
  induction depth with
  | zero =>
    exact ⟨fun _ _ h => h.exists_cons, fun _ _ _ h hr => ScalarText.read h hr none⟩
  | succ depth ih =>
    exact ⟨fun _ _ h => h.exists_cons, fun _ _ _ h hr => ih.read_nested h hr⟩

end JsonQuery.Toml
