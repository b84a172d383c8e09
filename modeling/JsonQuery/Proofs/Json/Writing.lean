import JsonQuery.Proofs.Json.Reading
import JsonQuery.Proofs.Value.Written

/-!
The text of a value is a JSON text and denotes the value as written, in every layout. What the
layout adds is white space of the grammar.
-/

namespace JsonQuery

open Json

theorem Layout.spaces_lineBreak (layout : Layout) (depth : Nat) :
    Spaces (layout.lineBreak depth) := by
  cases layout with
  | compact => exact spaces_nil
  | indented width =>
    rw [lineBreak]
    intro c hc
    rcases List.mem_cons.mp hc with rfl | hc
    · exact .inr (.inl rfl)
    · exact .inl (List.eq_of_mem_replicate hc)

/-- Behind a key stand a colon and white space. -/
theorem Layout.colon_eq (layout : Layout) : ∃ p, Spaces p ∧ layout.colon = ':' :: p := by
  cases layout with
  | compact => exact ⟨[], spaces_nil, rfl⟩
  | indented _ => exact ⟨[' '], by simp [Spaces], rfl⟩

namespace Json

theorem PaddedText.append_spaces {s q : List Char} {v : Value} (h : PaddedText s v)
    (hq : Spaces q) : PaddedText (s ++ q) v := by
  cases h with
  | mk hp hs hr =>
    rw [List.append_assoc, List.append_assoc]
    exact .mk hp hs (spaces_append hr hq)

theorem MemberText.append_spaces {s q : List Char} {m : String × Value} (h : MemberText s m)
    (hq : Spaces q) : MemberText (s ++ q) m := by
  cases h with
  | mk hp hs hr ht =>
    rw [List.append_assoc, List.append_assoc, List.append_assoc, List.cons_append]
    exact .mk hp hs hr (ht.append_spaces hq)

/-- White space before the closing bracket belongs to the last element. -/
theorem MoreElements.append_spaces {t : List Char} {elements : List Value} :
    MoreElements t elements → ∀ {s q : List Char} {v : Value}, PaddedText s v → Spaces q →
      ∃ s' t', PaddedText s' v ∧ MoreElements t' elements ∧ s ++ (t ++ q) = s' ++ t'
  | .nil, s, q, _, hs, hq => ⟨s ++ q, [], hs.append_spaces hq, .nil, by simp⟩
  | .cons hs' ht, s, q, _, hs, hq => by
    obtain ⟨s'', t'', hs'', ht'', heq⟩ := ht.append_spaces hs' hq
    exact ⟨s, _, hs, .cons hs'' ht'', by simp [heq]⟩

theorem MoreMembers.append_spaces {t : List Char} {members : List (String × Value)} :
    MoreMembers t members → ∀ {s q : List Char} {m : String × Value}, MemberText s m → Spaces q →
      ∃ s' t', MemberText s' m ∧ MoreMembers t' members ∧ s ++ (t ++ q) = s' ++ t'
  | .nil, s, q, _, hs, hq => ⟨s ++ q, [], hs.append_spaces hq, .nil, by simp⟩
  | .cons hs' ht, s, q, _, hs, hq => by
    obtain ⟨s'', t'', hs'', ht'', heq⟩ := ht.append_spaces hs' hq
    exact ⟨s, _, hs, .cons hs'' ht'', by simp [heq]⟩

theorem ValueText.array_of_spaces {s t q : List Char} {v : Value} {elements : List Value}
    (hs : PaddedText s v) (ht : MoreElements t elements) (hq : Spaces q) :
    ValueText ('[' :: (s ++ (t ++ (q ++ [']'])))) (.array (v :: elements)) := by
  obtain ⟨s', t', hs', ht', heq⟩ := ht.append_spaces hs hq
  have h := ValueText.array hs' ht'
  rw [← List.append_assoc, ← heq] at h
  simpa only [List.append_assoc] using h

theorem ValueText.object_of_spaces {s t q : List Char} {m : String × Value}
    {members : List (String × Value)} (hs : MemberText s m) (ht : MoreMembers t members)
    (hq : Spaces q) :
    ValueText ('{' :: (s ++ (t ++ (q ++ ['}'])))) (.object (Value.merged (m :: members))) := by
  obtain ⟨s', t', hs', ht', heq⟩ := ht.append_spaces hs hq
  have h := ValueText.object hs' ht'
  rw [← List.append_assoc, ← heq] at h
  simpa only [List.append_assoc] using h

theorem scalarText_number {x : Number} (hx : x.IsFinite) :
    ScalarText x.text (.number x.asWritten) := by
  obtain ⟨n, hn, hnumber⟩ := Number.numeralText_text hx
  rw [← hnumber]
  exact .number hn (hnumber ▸ Number.isFinite_asWritten hx)

end Json

namespace Value

/-- A value behind a line break. -/
theorem paddedText_lineBreak {s : List Char} {v : Value} (h : ValueText s v) (layout : Layout)
    (depth : Nat) : PaddedText (layout.lineBreak depth ++ s) v := by
  have hpadded := PaddedText.mk (layout.spaces_lineBreak depth) h spaces_nil
  rwa [List.append_nil] at hpadded

/-- A member behind a line break. -/
theorem memberText_lineBreak {s : List Char} {v : Value} (h : ValueText s v) (layout : Layout)
    (depth : Nat) (k : String) :
    MemberText (layout.lineBreak depth ++ (Text.jsonString k ++ (layout.colon ++ s))) (k, v) := by
  obtain ⟨p, hp, hcolon⟩ := layout.colon_eq
  have hvalue := PaddedText.mk hp h spaces_nil
  have hmember := MemberText.mk (layout.spaces_lineBreak depth) (stringText_jsonString k)
    spaces_nil hvalue
  simpa only [hcolon, List.append_nil, List.nil_append, List.cons_append] using hmember

mutual

/-- The text of a value denotes the value as written. -/
theorem valueText_textAt (layout : Layout) (depth : Nat) :
    (v : Value) → Sound v → ValueText (v.textAt layout depth) v.asWritten
  | null, _ => .scalar .nullWord
  | boolean true, _ => .scalar .trueWord
  | boolean false, _ => .scalar .falseWord
  | number x, h => .scalar (scalarText_number (h.finite.self x rfl))
  | string s, _ => .scalar (.string (stringText_jsonString s))
  | array [], _ => .emptyArray spaces_nil
  | array (v :: elements), h => by
    have hparts := h.of_array
    have hfirst := valueText_textAt layout (depth + 1) v (hparts v List.mem_cons_self)
    have hmore := moreElements_text layout (depth + 1) elements fun w hw =>
      hparts w (List.mem_cons_of_mem v hw)
    have harray := ValueText.array_of_spaces (paddedText_lineBreak hfirst layout (depth + 1)) hmore
      (layout.spaces_lineBreak depth)
    simpa only [asWritten, elementsAsWritten, textAt, List.append_assoc] using harray
  | object [], _ => .emptyObject spaces_nil
  | object ((k, v) :: members), h => by
    have hparts := h.of_object
    have hfirst := valueText_textAt layout (depth + 1) v (hparts (k, v) List.mem_cons_self)
    have hmore := moreMembers_text layout (depth + 1) members fun m hm =>
      hparts m (List.mem_cons_of_mem (k, v) hm)
    have hobject := ValueText.object_of_spaces
      (memberText_lineBreak hfirst layout (depth + 1) k) hmore (layout.spaces_lineBreak depth)
    have hnodup : ((membersAsWritten ((k, v) :: members)).map (·.1)).Nodup := by
      rw [map_fst_membersAsWritten]
      exact h.keys.1
    rw [← membersAsWritten, merged_eq_self hnodup] at hobject
    simpa only [asWritten, textAt, List.append_assoc] using hobject

theorem moreElements_text (layout : Layout) (depth : Nat) :
    (elements : List Value) → (∀ v ∈ elements, Sound v) →
      MoreElements (moreElements layout depth elements) (elementsAsWritten elements)
  | [], _ => .nil
  | v :: elements, h => by
    have hfirst := valueText_textAt layout depth v (h v List.mem_cons_self)
    have hmore := moreElements_text layout depth elements fun w hw =>
      h w (List.mem_cons_of_mem v hw)
    exact .cons (paddedText_lineBreak hfirst layout depth) hmore

theorem moreMembers_text (layout : Layout) (depth : Nat) :
    (members : List (String × Value)) → (∀ m ∈ members, Sound m.2) →
      MoreMembers (moreMembers layout depth members) (membersAsWritten members)
  | [], _ => .nil
  | (k, v) :: members, h => by
    have hfirst := valueText_textAt layout depth v (h (k, v) List.mem_cons_self)
    have hmore := moreMembers_text layout depth members fun m hm =>
      h m (List.mem_cons_of_mem (k, v) hm)
    have hmembers := MoreMembers.cons (memberText_lineBreak hfirst layout depth k) hmore
    simpa only [membersAsWritten, moreMembers, List.append_assoc] using hmembers

end

/-- A written value is read back as written. -/
theorem parse_text {v : Value} (h : Sound v) (layout : Layout) :
    Json.parse (v.text layout) = .ok v.asWritten := by
  have hdocument := PaddedText.mk spaces_nil (valueText_textAt layout 0 v h) spaces_nil
  rw [List.append_nil, List.nil_append] at hdocument
  exact parse_of_documentText hdocument

theorem parse_write {v : Value} (h : Sound v) (layout : Layout) :
    Json.parse (v.write layout).toList = .ok v.asWritten := by
  rw [toList_write, parse_text h]

theorem parse_writeArray {elements : List Value} (h : ∀ v ∈ elements, Sound v)
    (layout : Layout) :
    Json.parse (writeArray layout elements).toList = .ok (.array (elements.map asWritten)) := by
  rw [toList_writeArray, parse_text (sound_array h), asWritten, elementsAsWritten_eq]

theorem write_asWritten (v : Value) (layout : Layout) :
    v.asWritten.write layout = v.write layout := by
  rw [← String.toList_inj, toList_write, toList_write]
  exact textAt_asWritten layout 0 v

/-- Two values have one text exactly if nothing but signs of zeros tells them apart. -/
theorem write_eq_write_iff {v w : Value} (hv : Sound v) (hw : Sound w) (layout : Layout) :
    v.write layout = w.write layout ↔ v.asWritten = w.asWritten := by
  constructor
  · intro h
    have hread := parse_write hv layout
    rw [h, parse_write hw layout] at hread
    exact (Except.ok.inj hread).symm
  · intro h
    rw [← write_asWritten v, h, write_asWritten w]

end Value

end JsonQuery
