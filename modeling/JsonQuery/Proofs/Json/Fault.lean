import JsonQuery.Proofs.Json.Lexeme

/-!
Where a document is refused. Up to the place of a fault the text is the beginning of a JSON text,
numbers of any magnitude included. A fault that blames the character at its place stands right
before the first character with which no JSON text goes on.
-/

namespace JsonQuery.Json

section Documents

variable {opened : List Open} {v : Value} {text : List Char} {fault : Fault}

theorem locates_readValue_of_skipSpace
    (h : Locates (readValue opened) (Awaits opened) (skipSpace text) fault) :
    Locates (readValue opened) (Awaits opened) text fault := by
  obtain ⟨p, hp, htext⟩ := exists_spaces text
  rw [htext]
  exact h.behind (fun _ => readValue_spaces hp) fun _ ht => ht.prepend_spaces hp

theorem locates_readOn_of_skipSpace
    (h : Locates (readOn opened v) (Follows opened) (skipSpace text) fault) :
    Locates (readOn opened v) (Follows opened) text fault := by
  obtain ⟨p, hp, htext⟩ := exists_spaces text
  rw [htext]
  exact h.behind (fun _ => readOn_spaces hp) fun _ ht => ht.prepend_spaces hp

theorem readValue_openObject (h : (skipSpace text).head? ≠ some '}') :
    readValue opened ('{' :: text) =
      key text >>= fun r => readValue (.object [] r.1 :: opened) r.2 := by
  rw [readValue_eq, skipSpace_cons (by decide)]
  simp only
  split
  · rename_i hclose
    rw [hclose] at h
    exact absurd rfl h
  · rfl

theorem locates_emptyObject {rest : List Char} (hclose : skipSpace text = '}' :: rest)
    (h : Locates (readOn opened (.object [])) (Follows opened) rest fault) :
    Locates (readValue opened) (Awaits opened) ('{' :: text) fault := by
  obtain ⟨q, hq, rfl⟩ := exists_spaces_of_skipSpace hclose
  have hopen : Locates (readValue opened) (Awaits opened) ('{' :: (q ++ ['}']) ++ rest) fault := by
    refine h.behind (fun t => ?_) fun t ht => ?_
    · rw [List.cons_append, List.append_assoc]
      exact readValue_emptyObject hq
    · rw [List.cons_append, List.append_assoc]
      exact awaits_emptyObject hq ht
  rwa [List.cons_append, List.append_assoc] at hopen

theorem locates_emptyArray {rest : List Char} (hclose : skipSpace text = ']' :: rest)
    (h : Locates (readOn opened (.array [])) (Follows opened) rest fault) :
    Locates (readValue opened) (Awaits opened) ('[' :: text) fault := by
  obtain ⟨q, hq, rfl⟩ := exists_spaces_of_skipSpace hclose
  have hopen : Locates (readValue opened) (Awaits opened) ('[' :: (q ++ [']']) ++ rest) fault := by
    refine h.behind (fun t => ?_) fun t ht => ?_
    · rw [List.cons_append, List.append_assoc]
      exact readValue_emptyArray hq
    · rw [List.cons_append, List.append_assoc]
      exact awaits_emptyArray hq ht
  rwa [List.cons_append, List.append_assoc] at hopen

/-- A key and its value are read behind the opening mark. -/
theorem locates_object (hclose : (skipSpace text).head? ≠ some '}')
    (hread : (key (skipSpace text) >>= fun r => readValue (.object [] r.1 :: opened) r.2) =
      .error fault)
    (hmore : ∀ {k rest}, key (skipSpace text) = .ok (k, rest) →
      readValue (.object [] k :: opened) rest = .error fault →
      Locates (readValue (.object [] k :: opened)) (Awaits (.object [] k :: opened)) rest fault) :
    Locates (readValue opened) (Awaits opened) ('{' :: text) fault := by
  obtain ⟨q, hq, htext⟩ := exists_spaces text
  have hform : ∀ {s k t}, KeyForm s → Awaits (.object [] k :: opened) t →
      Awaits opened ('{' :: (q ++ (s ++ t))) := by
    intro s k t hs ht
    rw [← List.append_assoc]
    exact awaits_object (hs.prepend_spaces hq) ht
  have hkey : Locates (fun t => key t >>= fun r => readValue (.object [] r.1 :: opened) r.2)
      (fun t => Awaits opened ('{' :: (q ++ t))) (skipSpace text) fault := by
    refine reads_key.locates_bind hmore (fun _ _ _ => hform) (fun s hs => ?_) hread
    obtain ⟨t, ht⟩ := exists_awaits (.object [] "" :: opened)
    exact ⟨t, hform hs ht⟩
  have hopen : Locates (readValue opened) (Awaits opened) ('{' :: q ++ skipSpace text) fault := by
    refine hkey.append (fun t ht e he => ?_) fun t ht => ⟨[], ?_⟩
    · have hskip : skipSpace (q ++ t) = t := by rw [skipSpace_append hq, skipSpace_ahead ht]
      rw [List.cons_append, readValue_openObject (by rwa [hskip, ht]), key_spaces hq, he]
    · rw [List.append_nil]
      exact ht
  rwa [List.cons_append, ← htext] at hopen

theorem locates_array (hclose : (skipSpace text).head? ≠ some ']')
    (h : Locates (readValue (.array [] :: opened)) (Awaits (.array [] :: opened)) (skipSpace text)
      fault) :
    Locates (readValue opened) (Awaits opened) ('[' :: text) fault := by
  obtain ⟨q, hq, htext⟩ := exists_spaces text
  have hopen : Locates (readValue opened) (Awaits opened) ('[' :: q ++ skipSpace text) fault := by
    refine h.append (fun t ht e he => ?_) fun t ht => ⟨[], ?_⟩
    · have hskip : skipSpace (q ++ t) = t := by rw [skipSpace_append hq, skipSpace_ahead ht]
      rw [List.cons_append, readValue_openArray (by rwa [hskip, ht]), readValue_spaces hq, he]
    · rw [List.append_nil]
      exact awaits_array (ht.prepend_spaces hq)
  rwa [List.cons_append, ← htext] at hopen

/-- The members after the first are read behind their commas. -/
theorem locates_member {done : List (String × Value)} {k : String}
    (hread : (key text >>= fun r => readValue (.object (Keyed.put k v done) r.1 :: opened) r.2) =
      .error fault)
    (hmore : ∀ {k' rest}, key text = .ok (k', rest) →
      readValue (.object (Keyed.put k v done) k' :: opened) rest = .error fault →
      Locates (readValue (.object (Keyed.put k v done) k' :: opened))
        (Awaits (.object (Keyed.put k v done) k' :: opened)) rest fault) :
    Locates (readOn (.object done k :: opened) v) (Follows (.object done k :: opened))
      (',' :: text) fault := by
  have hkey : Locates (fun t => key t >>= fun r =>
      readValue (.object (Keyed.put k v done) r.1 :: opened) r.2)
      (fun t => Follows (.object done k :: opened) (',' :: t)) text fault := by
    refine reads_key.locates_bind hmore (fun _ _ _ => follows_member) (fun s hs => ?_) hread
    obtain ⟨t, ht⟩ := exists_awaits (.object [] "" :: opened)
    exact ⟨t, follows_member hs ht⟩
  refine hkey.behind (p := [',']) (fun t => ?_) fun _ ht => ht
  rw [List.singleton_append, readOn_object, skipSpace_cons (by decide)]
  rfl

/-- In front of a character that opens nothing, a value without members is read. -/
theorem locates_scalarValue (hobject : (skipSpace text).head? ≠ some '{')
    (harray : (skipSpace text).head? ≠ some '[')
    (hread : (scalar (skipSpace text) >>= fun r => readOn opened r.1 r.2) = .error fault)
    (hmore : ∀ {v rest}, scalar (skipSpace text) = .ok (v, rest) →
      readOn opened v rest = .error fault →
      Locates (readOn opened v) (Follows opened) rest fault) :
    Locates (readValue opened) (Awaits opened) (skipSpace text) fault := by
  have hscalar : Locates (fun t => scalar t >>= fun r => readOn opened r.1 r.2) (Awaits opened)
      (skipSpace text) fault := by
    refine reads_scalar.locates_bind hmore (fun _ _ _ => awaits_scalar) (fun s hs => ?_) hread
    obtain ⟨t, ht⟩ := exists_follows opened
    exact ⟨t, awaits_scalar hs ht⟩
  refine hscalar.mono (fun t ht e he => ?_) fun t ht => ⟨[], by rwa [List.append_nil]⟩
  rw [readValue_of_head (skipSpace_ahead ht) (ht ▸ hobject) (ht ▸ harray), he]

theorem locates_comma {done : List Value}
    (h : Locates (readValue (.array (v :: done) :: opened)) (Awaits (.array (v :: done) :: opened))
      text fault) :
    Locates (readOn (.array done :: opened) v) (Follows (.array done :: opened)) (',' :: text)
      fault := by
  refine h.behind (p := [',']) (fun t => ?_) fun _ ht => follows_element ht
  rw [List.singleton_append, readOn_array, skipSpace_cons (by decide)]
  rfl

theorem locates_closeArray {done : List Value}
    (h : Locates (readOn opened (.array (v :: done).reverse)) (Follows opened) text fault) :
    Locates (readOn (.array done :: opened) v) (Follows (.array done :: opened)) (']' :: text)
      fault := by
  refine h.behind (p := [']']) (fun t => ?_) fun _ ht => follows_closeArray ht
  rw [List.singleton_append, readOn_array, skipSpace_cons (by decide)]
  rfl

theorem locates_closeObject {done : List (String × Value)} {k : String}
    (h : Locates (readOn opened (.object (Keyed.put k v done))) (Follows opened) text fault) :
    Locates (readOn (.object done k :: opened) v) (Follows (.object done k :: opened))
      ('}' :: text) fault := by
  refine h.behind (p := ['}']) (fun t => ?_) fun _ ht => follows_closeObject ht
  rw [List.singleton_append, readOn_object, skipSpace_cons (by decide)]
  rfl

theorem locates_trailing (h : skipSpace text ≠ []) :
    Locates (readOn [] v) (Follows []) (skipSpace text) ⟨.trailing, skipSpace text⟩ := by
  refine locates_front (exists_follows []) (fun c rest heq rest' => ?_) fun _ => h
  have hhead : (c :: rest').head? = (skipSpace text).head? := by
    rw [heq, List.head?_cons, List.head?_cons]
  rw [readOn, skipSpace_ahead hhead]

/-- Behind an element stands neither a comma nor the closing bracket. -/
theorem locates_elementEnd {done : List Value} (hcomma : (skipSpace text).head? ≠ some ',')
    (hclose : (skipSpace text).head? ≠ some ']') :
    Locates (readOn (.array done :: opened) v) (Follows (.array done :: opened)) (skipSpace text)
      ⟨.unexpected .elementEnd, skipSpace text⟩ := by
  refine locates_unexpected (exists_follows _) fun t ht => ?_
  rw [readOn_array, skipSpace_ahead ht]
  rw [← ht] at hcomma hclose
  split
  · exact absurd rfl hcomma
  · exact absurd rfl hclose
  · rfl

theorem locates_memberEnd {done : List (String × Value)} {k : String}
    (hcomma : (skipSpace text).head? ≠ some ',') (hclose : (skipSpace text).head? ≠ some '}') :
    Locates (readOn (.object done k :: opened) v) (Follows (.object done k :: opened))
      (skipSpace text) ⟨.unexpected .memberEnd, skipSpace text⟩ := by
  refine locates_unexpected (exists_follows _) fun t ht => ?_
  rw [readOn_object, skipSpace_ahead ht]
  rw [← ht] at hcomma hclose
  split
  · exact absurd rfl hcomma
  · exact absurd rfl hclose
  · rfl

mutual

theorem locates_readValue {opened : List Open} {text : List Char} {fault : Fault}
    (h : readValue opened text = .error fault) :
    Locates (readValue opened) (Awaits opened) text fault := by
  apply locates_readValue_of_skipSpace
  rw [readValue_eq] at h
  split at h
  · rename_i rest hopen
    have hlt := length_lt_of_skipSpace hopen
    rw [hopen]
    split at h
    · rename_i rest' hclose
      have hlt' := length_lt_of_skipSpace hclose
      exact locates_emptyObject hclose (locates_readOn h)
    · rename_i hclose
      obtain ⟨q, hq, hrest⟩ := exists_spaces rest
      have hread : (key (skipSpace rest) >>= fun r => readValue (.object [] r.1 :: opened) r.2) =
          .error fault := by
        rw [hrest, key_spaces hq] at h
        exact h
      refine locates_object (head?_ne_of_forall hclose) hread fun {k rest₁} hkey h => ?_
      have hkeyLt := key_length hkey
      have hle := skipSpace_length_le rest
      exact locates_readValue h
  · rename_i rest hopen
    have hlt := length_lt_of_skipSpace hopen
    rw [hopen]
    split at h
    · rename_i rest' hclose
      have hlt' := length_lt_of_skipSpace hclose
      exact locates_emptyArray hclose (locates_readOn h)
    · rename_i hclose
      obtain ⟨q, hq, hrest⟩ := exists_spaces rest
      have hle := skipSpace_length_le rest
      rw [hrest, readValue_spaces hq] at h
      exact locates_array (head?_ne_of_forall hclose) (locates_readValue h)
  · rename_i hobject harray
    refine locates_scalarValue (head?_ne_of_forall hobject) (head?_ne_of_forall harray) h
      fun {v rest} hscalar h => ?_
    have hlt := scalar_length hscalar
    have hle := skipSpace_length_le text
    exact locates_readOn h
  termination_by text.length
  decreasing_by all_goals omega

theorem locates_readOn {opened : List Open} {v : Value} {text : List Char} {fault : Fault}
    (h : readOn opened v text = .error fault) :
    Locates (readOn opened v) (Follows opened) text fault := by
  apply locates_readOn_of_skipSpace
  match opened with
  | [] =>
    rw [readOn] at h
    split at h
    · cases h
    · rename_i hend
      cases h
      exact locates_trailing hend
  | .array done :: opened =>
    rw [readOn_array] at h
    split at h
    · rename_i rest hcomma
      have hlt := length_lt_of_skipSpace hcomma
      rw [hcomma]
      exact locates_comma (locates_readValue h)
    · rename_i rest hclose
      have hlt := length_lt_of_skipSpace hclose
      rw [hclose]
      exact locates_closeArray (locates_readOn h)
    · rename_i hcomma hclose
      cases h
      exact locates_elementEnd (head?_ne_of_forall hcomma) (head?_ne_of_forall hclose)
  | .object done k :: opened =>
    rw [readOn_object] at h
    split at h
    · rename_i rest hcomma
      have hlt := length_lt_of_skipSpace hcomma
      rw [hcomma]
      refine locates_member h fun {k' rest'} hkey h => ?_
      have hkeyLt := key_length hkey
      exact locates_readValue h
    · rename_i rest hclose
      have hlt := length_lt_of_skipSpace hclose
      rw [hclose]
      exact locates_closeObject (locates_readOn h)
    · rename_i hcomma hclose
      cases h
      exact locates_memberEnd (head?_ne_of_forall hcomma) (head?_ne_of_forall hclose)
  termination_by text.length
  decreasing_by all_goals omega

end

end Documents

/-- Where a document is refused, all that stands before the place of the fault is the beginning of
a JSON text, and the offset is its length in bytes. A fault that blames a character names the first
one with which no JSON text goes on; without such a character the document ends too early. -/
theorem parse_error_offset {document : List Char} {fault : Fault}
    (h : parse document = .error fault) :
    ∃ before, document = before ++ fault.rest ∧
      fault.offset document = Text.byteCount before ∧
      fault.offset document ≤ Text.byteCount document ∧
      (∃ more, DocumentForm (before ++ more)) ∧
      (fault.cause.Blames →
        (∃ c rest, fault.rest = c :: rest ∧ (¬ ∃ more, DocumentForm (before ++ c :: more)) ∧
          ∀ expected, fault.cause = .unexpected expected →
            fault.phrases.1 = "unexpected character '" ++ c.toString ++ "'") ∨
        (fault.rest = [] ∧ fault.offset document = Text.byteCount document ∧
          ∃ expected, fault.cause = .unexpected expected ∧
            fault.phrases.1 = "unexpected end of input")) := by
  obtain ⟨before, hdocument, hfault⟩ := locates_readValue h
  have hoffset : fault.offset document = Text.byteCount before := by
    rw [hdocument, fault.offset_append]
  have hcount : Text.byteCount document = Text.byteCount before + Text.byteCount fault.rest := by
    rw [hdocument, Text.byteCount_append]
  obtain ⟨more, hmore⟩ := hfault.viable
  refine ⟨before, hdocument, hoffset, by omega, ⟨more, hmore.documentForm⟩, fun hblames => ?_⟩
  cases hrest : fault.rest with
  | nil =>
    right
    rw [hrest, Text.byteCount_nil] at hcount
    refine ⟨rfl, by omega, ?_⟩
    cases hcause : fault.cause with
    | unexpected expected => exact ⟨expected, rfl, by simp only [Fault.phrases, hcause, hrest]⟩
    | control => exact absurd hrest (hfault.atCharacter (.inl hcause))
    | trailing => exact absurd hrest (hfault.atCharacter (.inr hcause))
    | _ =>
      rw [hcause] at hblames
      cases hblames
  | cons c rest =>
    left
    refine ⟨c, rest, rfl, ?_, fun expected hcause => by simp only [Fault.phrases, hcause, hrest]⟩
    rintro ⟨more, hmore⟩
    have hrefused := hfault.blames hblames c rest hrest more
    rcases parse_of_documentForm hmore with ⟨v, hread⟩ | ⟨place, hread⟩
    · rw [parse, hrefused] at hread
      cases hread
    · rw [parse, hrefused] at hread
      have hcause : fault.cause = .number := congrArg Text.Fault.cause (Except.error.inj hread)
      rw [hcause] at hblames
      cases hblames

/-- A word that stops short, in an array. -/
theorem parse_error_offset_word :
    let document := "[tru]".toList
    let fault : Fault := ⟨.unexpected (.word "true"), [']']⟩
    parse document = .error fault ∧ fault.cause.Blames ∧ fault.offset document = 4 ∧
      ∃ before, document = before ++ [']'] ∧ (∃ more, DocumentForm (before ++ more)) ∧
        ¬ ∃ more, DocumentForm (before ++ ']' :: more) := by
  intro document fault
  have hread : parse document = .error fault := by
    have hdocument : document = '[' :: "tru]".toList := rfl
    rw [parse, hdocument, readValue_openArray (by decide),
      readValue_of_head (by decide) (by decide) (by decide)]
    rfl
  obtain ⟨before, hdocument, -, -, hviable, hblames⟩ := parse_error_offset hread
  rcases hblames trivial with ⟨c, rest, hrest, hnot, -⟩ | ⟨hrest, -⟩
  · cases hrest
    exact ⟨hread, trivial, by decide, before, hdocument, hviable, hnot⟩
  · cases hrest

end JsonQuery.Json
