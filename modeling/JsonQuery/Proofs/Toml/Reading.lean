import JsonQuery.Proofs.Toml.Item

/-!
Documents of the grammar. Reading one comes to assigning what its lines assign, one after the other.
-/

namespace JsonQuery.Toml

theorem expression?_assignment {s t rest : List Char} {assigned : Assignment}
    (hs : AssignmentText (ItemText maxDepth) s assigned) (ht : Ends t)
    (hr : lineEnd? t = some rest) (members : Members) :
    expression? ⟨members, []⟩ (s ++ t) =
      (members.assign? assigned.key assigned.item).map fun members => (⟨members, []⟩, rest) := by
  have hread := (takes_itemReader maxDepth).assignment?_append hs ht
  obtain ⟨c, s', rfl, hc⟩ := hs.exists_cons
  have hopen : ∀ rest', c :: s' ++ t ≠ '[' :: rest' := by
    rintro rest' ⟨⟩
    cases hc
  rw [expression?]
  · rw [hread]
    simp only [hr, Members.assignIn?, Members.update, Option.bind_eq_bind, Option.bind_some,
      Option.pure_def]
    cases members.assign? assigned.key assigned.item <;> rfl
  · exact fun _ => hopen _
  · exact hopen

/-- The reader without the proofs that it ends by. -/
theorem expressions?_eq (draft : Draft) (text : List Char) :
    expressions? draft text =
      match skipLines text with
      | [] => some draft.members
      | c :: front =>
        (expression? draft (c :: front)).bind fun read => expressions? read.1 read.2 := by
  rw [expressions?]
  split
  · rename_i heq
    rw [heq]
  · rename_i heq
    rw [heq]
    split
    · rename_i he
      simp only [he, Option.bind_some]
    · rename_i he
      simp only [he, Option.bind_none]

theorem expressions?_last {s : List Char} (hs : ClosingText s) (draft : Draft) :
    expressions? draft s = some draft.members := by
  rw [expressions?_eq, skipLines_last hs]

theorem expressions?_break {s b : List Char} (hs : ClosingText s) (hb : LineBreak b)
    (rest : List Char) (draft : Draft) :
    expressions? draft (s ++ (b ++ rest)) = expressions? draft rest := by
  rw [expressions?_eq, skipLines_break hs hb, ← expressions?_eq]

theorem expressions?_assignment {p s t rest : List Char} {assigned : Assignment} (hp : Spaces p)
    (hs : AssignmentText (ItemText maxDepth) s assigned) (ht : Ends t)
    (hr : lineEnd? t = some rest) (members : Members) :
    expressions? ⟨members, []⟩ (p ++ (s ++ t)) =
      (members.assign? assigned.key assigned.item).bind fun members =>
        expressions? ⟨members, []⟩ rest := by
  have hexpression := expression?_assignment hs ht hr members
  obtain ⟨c, s', rfl, hc⟩ := hs.exists_cons
  rw [List.cons_append] at hexpression
  rw [expressions?_eq, List.cons_append, skipLines_append (.space hp) (isSolid_of_opensKey hc)]
  simp only [hexpression, Option.bind_map]
  rfl

theorem LinesText.read {s : List Char} {assigned : List Assignment} (h : LinesText s assigned)
    (members : Members) : expressions? ⟨members, []⟩ s = members.assignAll? assigned := by
  induction h generalizing members with
  | last hs =>
    cases hs with
    | blank hs => exact expressions?_last hs _
    | assignment hp hs ht =>
      rw [expressions?_assignment hp hs ht.ends_last (lineEnd?_last ht)]
      simp only [expressions?_last (.space spaces_nil)]
      rfl
  | cons hs hb _ ih =>
    cases hs with
    | blank hs =>
      rw [expressions?_break hs hb, ih]
      rfl
    | assignment hp hs ht =>
      rw [List.append_assoc, List.append_assoc,
        expressions?_assignment hp hs (ht.ends (hb.ends _)) (lineEnd?_break ht hb _)]
      simp only [ih]
      rfl

/-- A line does not begin with a byte order mark. -/
theorem LineText.head {s rest : List Char} {assigned : List Assignment} (h : LineText s assigned)
    (hr : ∀ c ∈ rest.head?, c ≠ '\uFEFF') : ∀ c ∈ (s ++ rest).head?, c ≠ '\uFEFF' := by
  have hspace : ∀ {p : List Char}, Spaces p → ∀ c ∈ p, c ≠ '\uFEFF' := by
    intro p hp c hc
    rcases isSpace_cases (hp c hc) with rfl | rfl <;> decide
  cases h with
  | blank hs =>
    cases hs with
    | space hp => exact forall_head?_append (hspace hp) hr
    | comment hp =>
      rw [List.append_assoc]
      exact forall_head?_append (hspace hp) (by simp)
  | assignment hp hs =>
    obtain ⟨c, s', rfl, hc⟩ := hs.exists_cons
    rw [List.append_assoc]
    apply forall_head?_append (hspace hp)
    rintro _ ⟨⟩ rfl
    cases hc

theorem LinesText.afterMark_eq {s : List Char} {assigned : List Assignment}
    (h : LinesText s assigned) : afterMark s = s := by
  have hhead : ∀ c ∈ s.head?, c ≠ '\uFEFF' := by
    cases h with
    | last hs =>
      have hlast : ∀ c ∈ (s ++ []).head?, c ≠ '\uFEFF' := hs.head (by simp)
      rwa [List.append_nil] at hlast
    | cons hs hb =>
      apply hs.head
      intro c hc
      rcases hb.head _ c hc with rfl | rfl <;> decide
  cases s with
  | nil => rfl
  | cons c s =>
    rw [afterMark]
    rintro _ ⟨⟩
    exact hhead _ rfl rfl

theorem DocumentText.parse?_eq {s : List Char} {assigned : List Assignment}
    (h : DocumentText s assigned) : parse? s = Members.assignAll? [] assigned := by
  cases h with
  | plain hs => rw [parse?, hs.afterMark_eq, hs.read]
  | marked hs => rw [parse?, afterMark, hs.read]

end JsonQuery.Toml
