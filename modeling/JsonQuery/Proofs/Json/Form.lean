import JsonQuery.Proofs.Json.Reading

/-!
The form of JSON texts (RFC 8259) without what they denote: numbers may be of any magnitude, and
the surrogates in strings come in pairs. The reader of documents refuses such a text for the
magnitude of a number alone. What still has to follow when containers are open is a language of its
own, which the reader takes apart step by step.
-/

namespace JsonQuery.Json

open Text (bind_eq_ok)
open Numeral (Ends ends_cons ends_nil)

inductive ScalarForm : List Char → Prop where
  | nullWord : ScalarForm "null".toList
  | trueWord : ScalarForm "true".toList
  | falseWord : ScalarForm "false".toList
  | number {s : List Char} {n : Numeral} (hs : n.NumeralText s) : ScalarForm s
  | string {s : List Char} {value : String} (hs : StringText s value) : ScalarForm s

mutual

/-- The form of a value, without white space around it. -/
inductive ValueForm : List Char → Prop where
  | scalar {s : List Char} (hs : ScalarForm s) : ValueForm s
  | emptyArray {p : List Char} (hp : Spaces p) : ValueForm ('[' :: (p ++ [']']))
  | array {s t : List Char} (hs : PaddedForm s) (ht : MoreElementForms t) :
      ValueForm ('[' :: (s ++ (t ++ [']'])))
  | emptyObject {p : List Char} (hp : Spaces p) : ValueForm ('{' :: (p ++ ['}']))
  | object {s t : List Char} (hs : MemberForm s) (ht : MoreMemberForms t) :
      ValueForm ('{' :: (s ++ (t ++ ['}'])))

inductive PaddedForm : List Char → Prop where
  | mk {p s q : List Char} (hp : Spaces p) (hs : ValueForm s) (hq : Spaces q) :
      PaddedForm (p ++ (s ++ q))

inductive MoreElementForms : List Char → Prop where
  | nil : MoreElementForms []
  | cons {s t : List Char} (hs : PaddedForm s) (ht : MoreElementForms t) :
      MoreElementForms (',' :: (s ++ t))

inductive MemberForm : List Char → Prop where
  | mk {p s q t : List Char} {key : String} (hp : Spaces p) (hs : StringText s key)
      (hq : Spaces q) (ht : PaddedForm t) : MemberForm (p ++ (s ++ (q ++ ':' :: t)))

inductive MoreMemberForms : List Char → Prop where
  | nil : MoreMemberForms []
  | cons {s t : List Char} (hs : MemberForm s) (ht : MoreMemberForms t) :
      MoreMemberForms (',' :: (s ++ t))

end

/-- The form of a document: one value. -/
def DocumentForm : List Char → Prop := PaddedForm

theorem PaddedForm.append_spaces {s q : List Char} (h : PaddedForm s) (hq : Spaces q) :
    PaddedForm (s ++ q) := by
  cases h with
  | mk hp hs hq' =>
    rw [List.append_assoc, List.append_assoc]
    exact .mk hp hs (spaces_append hq' hq)

theorem PaddedForm.prepend_spaces {p s : List Char} (hp : Spaces p) (h : PaddedForm s) :
    PaddedForm (p ++ s) := by
  cases h with
  | mk hp' hs hq =>
    rw [← List.append_assoc]
    exact .mk (spaces_append hp hp') hs hq

/-- What may stand behind a finished value, up to the end of the document. -/
def Follows : List Open → List Char → Prop
  | [], t => Spaces t
  | .array _ :: opened, t =>
    ∃ q m r, Spaces q ∧ MoreElementForms m ∧ Follows opened r ∧ t = q ++ (m ++ ']' :: r)
  | .object _ _ :: opened, t =>
    ∃ q m r, Spaces q ∧ MoreMemberForms m ∧ Follows opened r ∧ t = q ++ (m ++ '}' :: r)

/-- What may stand where a value is to come. -/
def Awaits (opened : List Open) (t : List Char) : Prop :=
  ∃ s r, PaddedForm s ∧ Follows opened r ∧ t = s ++ r

theorem Awaits.documentForm {t : List Char} (h : Awaits [] t) : DocumentForm t := by
  obtain ⟨s, r, hs, hr, rfl⟩ := h
  exact hs.append_spaces hr

section Follows

variable {opened : List Open} {p t : List Char}

theorem Follows.prepend_spaces (hp : Spaces p) (h : Follows opened t) :
    Follows opened (p ++ t) := by
  match opened with
  | [] => exact spaces_append hp h
  | .array _ :: opened =>
    obtain ⟨q, m, r, hq, hm, hr, rfl⟩ := h
    exact ⟨p ++ q, m, r, spaces_append hp hq, hm, hr, by simp⟩
  | .object _ _ :: opened =>
    obtain ⟨q, m, r, hq, hm, hr, rfl⟩ := h
    exact ⟨p ++ q, m, r, spaces_append hp hq, hm, hr, by simp⟩

theorem Awaits.prepend_spaces (hp : Spaces p) (h : Awaits opened t) : Awaits opened (p ++ t) := by
  obtain ⟨s, r, hs, hr, rfl⟩ := h
  exact ⟨p ++ s, r, hs.prepend_spaces hp, hr, by simp⟩

theorem awaits_scalar {s : List Char} (hs : ScalarForm s) (h : Follows opened t) :
    Awaits opened (s ++ t) :=
  ⟨_, t, .mk spaces_nil (.scalar hs) spaces_nil, h, by simp⟩

theorem follows_closeArray {done : List Value} (h : Follows opened t) :
    Follows (.array done :: opened) (']' :: t) :=
  ⟨[], [], t, spaces_nil, .nil, h, rfl⟩

theorem follows_closeObject {done : List (String × Value)} {k : String} (h : Follows opened t) :
    Follows (.object done k :: opened) ('}' :: t) :=
  ⟨[], [], t, spaces_nil, .nil, h, rfl⟩

theorem exists_follows (opened : List Open) : ∃ t, Follows opened t := by
  induction opened with
  | nil => exact ⟨[], spaces_nil⟩
  | cons container opened ih =>
    obtain ⟨t, ht⟩ := ih
    cases container with
    | array done => exact ⟨_, follows_closeArray ht⟩
    | object done k => exact ⟨_, follows_closeObject ht⟩

theorem exists_awaits (opened : List Open) : ∃ t, Awaits opened t := by
  obtain ⟨t, ht⟩ := exists_follows opened
  exact ⟨_, awaits_scalar .nullWord ht⟩

theorem awaits_emptyArray (hp : Spaces p) (h : Follows opened t) :
    Awaits opened ('[' :: (p ++ ']' :: t)) :=
  ⟨_, t, .mk spaces_nil (.emptyArray hp) spaces_nil, h, by simp⟩

theorem awaits_emptyObject (hp : Spaces p) (h : Follows opened t) :
    Awaits opened ('{' :: (p ++ '}' :: t)) :=
  ⟨_, t, .mk spaces_nil (.emptyObject hp) spaces_nil, h, by simp⟩

theorem awaits_array {done : List Value} (h : Awaits (.array done :: opened) t) :
    Awaits opened ('[' :: t) := by
  obtain ⟨s, _, hs, ⟨q, m, r, hq, hm, hr, rfl⟩, rfl⟩ := h
  exact ⟨_, r, .mk spaces_nil (.array (hs.append_spaces hq) hm) spaces_nil, hr, by simp⟩

theorem follows_element {done done' : List Value} (h : Awaits (.array done :: opened) t) :
    Follows (.array done' :: opened) (',' :: t) := by
  obtain ⟨s, _, hs, ⟨q, m, r, hq, hm, hr, rfl⟩, rfl⟩ := h
  exact ⟨[], _, r, spaces_nil, .cons (hs.append_spaces hq) hm, hr, by simp⟩

/-- The form of a key and of the white space up to its colon. -/
inductive KeyForm : List Char → Prop where
  | mk {p s q : List Char} {k : String} (hp : Spaces p) (hs : StringText s k) (hq : Spaces q) :
      KeyForm (p ++ (s ++ (q ++ [':'])))

theorem KeyForm.member {k t : List Char} (hk : KeyForm k) (ht : PaddedForm t) :
    MemberForm (k ++ t) := by
  cases hk with
  | mk hp hs hq =>
    have hmember := MemberForm.mk hp hs hq ht
    simpa using hmember

theorem awaits_object {done : List (String × Value)} {name : String} {k : List Char}
    (hk : KeyForm k) (h : Awaits (.object done name :: opened) t) :
    Awaits opened ('{' :: (k ++ t)) := by
  obtain ⟨s, _, hs, ⟨q, m, r, hq, hm, hr, rfl⟩, rfl⟩ := h
  exact ⟨_, r, .mk spaces_nil (.object (hk.member (hs.append_spaces hq)) hm) spaces_nil, hr,
    by simp⟩

theorem follows_member {done done' : List (String × Value)} {name name' : String} {k : List Char}
    (hk : KeyForm k) (h : Awaits (.object done name :: opened) t) :
    Follows (.object done' name' :: opened) (',' :: (k ++ t)) := by
  obtain ⟨s, _, hs, ⟨q, m, r, hq, hm, hr, rfl⟩, rfl⟩ := h
  exact ⟨[], _, r, spaces_nil, .cons (hk.member (hs.append_spaces hq)) hm, hr, by simp⟩

end Follows

/-- The reader goes on behind a finished value, or has refused a number. -/
def GoesOn (result : Except Fault Value) (opened : List Open) (rest : List Char) : Prop :=
  (∃ v, result = readOn opened v rest) ∨ ∃ place, result = .error ⟨.number, place⟩

theorem GoesOn.trans {result : Except Fault Value} {opened opened' : List Open}
    {rest rest' : List Char} (h : GoesOn result opened rest)
    (hrest : ∀ v, GoesOn (readOn opened v rest) opened' rest') : GoesOn result opened' rest' := by
  rcases h with ⟨v, rfl⟩ | h
  · exact hrest v
  · exact .inr h

theorem ScalarForm.cases {s : List Char} (h : ScalarForm s) :
    (∃ v, ScalarText s v) ∨ ∃ n : Numeral, n.NumeralText s ∧ ¬ n.number.IsFinite := by
  cases h with
  | nullWord => exact .inl ⟨_, .nullWord⟩
  | trueWord => exact .inl ⟨_, .trueWord⟩
  | falseWord => exact .inl ⟨_, .falseWord⟩
  | string hs => exact .inl ⟨_, .string hs⟩
  | @number _ n hs =>
    by_cases hn : n.number.IsFinite
    · exact .inl ⟨_, .number hs hn⟩
    · exact .inr ⟨n, hs, hn⟩

theorem number_error {s rest : List Char} {n : Numeral} (hs : n.NumeralText s)
    (hn : ¬ n.number.IsFinite) (hr : Ends rest) :
    number (s ++ rest) = .error ⟨.number, s ++ rest⟩ := by
  simp only [number, Numeral.numeral_append hs hr, bind, Except.bind, hn, if_false]

/-- In front of a character that opens nothing stands a value without members. -/
theorem readValue_of_head {opened : List Open} {text : List Char}
    (hspace : skipSpace text = text) (hobject : text.head? ≠ some '{')
    (harray : text.head? ≠ some '[') :
    readValue opened text = scalar text >>= fun r => readOn opened r.1 r.2 := by
  rw [readValue_eq, hspace]
  split
  · exact absurd rfl hobject
  · exact absurd rfl harray
  · rfl

theorem scalar_number {c : Char} {text : List Char} (hc : c = '-' ∨ c.isDigit = true) :
    scalar (c :: text) = number (c :: text) >>= fun r => .ok (.number r.1, r.2) := by
  rw [scalar, if_pos hc]
  · rfl
  all_goals
    rintro rfl
    simp at hc

theorem head_of_numeral {c : Char} (hc : c = '-' ∨ c.isDigit = true) :
    isSpace c = false ∧ c ≠ '{' ∧ c ≠ '[' ∧ c ≠ ']' := by
  rcases hc with rfl | hc
  · decide
  · refine ⟨isSpace_of_isDigit hc, ?_, ?_, ?_⟩ <;>
    · rintro rfl
      simp at hc

theorem ScalarForm.read {s : List Char} (h : ScalarForm s) (opened : List Open)
    {rest : List Char} (hr : Ends rest) : GoesOn (readValue opened (s ++ rest)) opened rest := by
  rcases h.cases with ⟨v, hs⟩ | ⟨n, hs, hn⟩
  · exact .inl ⟨v, readValue_scalar hs hr⟩
  · have hnumber := number_error hs hn hr
    obtain ⟨c, t, rfl, hc⟩ := numeralText_first hs
    obtain ⟨hspace, hobject, harray, -⟩ := head_of_numeral hc
    rw [List.cons_append] at hnumber ⊢
    rw [readValue_of_head (skipSpace_cons hspace _) (by simpa using hobject)
      (by simpa using harray), scalar_number hc, hnumber]
    exact .inr ⟨_, rfl⟩

theorem ValueForm.first {s : List Char} (h : ValueForm s) :
    ∃ c t, s = c :: t ∧ isSpace c = false ∧ c ≠ ']' := by
  cases h with
  | scalar hs =>
    rcases hs.cases with ⟨v, hs⟩ | ⟨n, hs, -⟩
    · exact (ValueText.scalar hs).first
    · obtain ⟨c, t, rfl, hc⟩ := numeralText_first hs
      obtain ⟨hspace, -, -, hclose⟩ := head_of_numeral hc
      exact ⟨c, t, rfl, hspace, hclose⟩
  | _ => exact ⟨_, _, rfl, by decide, by decide⟩

theorem PaddedForm.skipSpace_ne {s : List Char} (h : PaddedForm s) (rest : List Char) :
    (skipSpace (s ++ rest)).head? ≠ some ']' := by
  cases h with
  | mk hp hs hq =>
    obtain ⟨c, t, rfl, hspace, hc⟩ := hs.first
    rw [List.append_assoc, skipSpace_append hp, List.append_assoc, List.cons_append,
      skipSpace_cons hspace]
    simpa using hc

theorem readValue_openArray {opened : List Open} {text : List Char}
    (h : (skipSpace text).head? ≠ some ']') :
    readValue opened ('[' :: text) = readValue (.array [] :: opened) text := by
  rw [readValue_eq, skipSpace_cons (by decide)]
  simp only
  split
  · rename_i hclose
    rw [hclose] at h
    exact absurd rfl h
  · rfl

theorem MoreElementForms.ends {t : List Char} (h : MoreElementForms t) (rest : List Char) :
    Ends (t ++ ']' :: rest) := by
  cases h with
  | nil => exact ends_cons (by decide) rest
  | cons _ _ => exact ends_cons (by decide) _

theorem MoreMemberForms.ends {t : List Char} (h : MoreMemberForms t) (rest : List Char) :
    Ends (t ++ '}' :: rest) := by
  cases h with
  | nil => exact ends_cons (by decide) rest
  | cons _ _ => exact ends_cons (by decide) _

mutual

theorem ValueForm.read {s : List Char} (h : ValueForm s) (opened : List Open)
    {rest : List Char} (hr : Ends rest) : GoesOn (readValue opened (s ++ rest)) opened rest :=
  match h with
  | .scalar hs => hs.read opened hr
  | .emptyArray hp => by
    rw [List.cons_append, List.append_assoc, List.singleton_append, readValue_emptyArray hp]
    exact .inl ⟨_, rfl⟩
  | .emptyObject hp => by
    rw [List.cons_append, List.append_assoc, List.singleton_append, readValue_emptyObject hp]
    exact .inl ⟨_, rfl⟩
  | .array hs ht => by
    rw [List.cons_append, List.append_assoc, List.append_assoc, List.singleton_append,
      readValue_openArray (hs.skipSpace_ne _)]
    exact (hs.read _ (ht.ends rest)).trans fun v => ht.read opened _ v rest
  | .object hs ht => by
    obtain ⟨k, text, hkey, hvalue⟩ := hs.read (ht.ends rest)
    rw [List.cons_append, List.append_assoc, List.append_assoc, List.singleton_append,
      readValue_object hkey]
    exact (hvalue _).trans fun v => ht.read opened _ _ v rest

theorem PaddedForm.read {s : List Char} (h : PaddedForm s) (opened : List Open)
    {rest : List Char} (hr : Ends rest) : GoesOn (readValue opened (s ++ rest)) opened rest :=
  match h with
  | .mk hp hs hq => by
    rw [List.append_assoc, List.append_assoc, readValue_spaces hp]
    exact (hs.read opened (ends_append hq hr)).trans fun v => .inl ⟨v, readOn_spaces hq⟩

theorem MoreElementForms.read {t : List Char} (h : MoreElementForms t) (opened : List Open)
    (done : List Value) (v : Value) (rest : List Char) :
    GoesOn (readOn (.array done :: opened) v (t ++ ']' :: rest)) opened rest :=
  match h with
  | .nil => by
    rw [List.nil_append, readOn_array, skipSpace_cons (by decide)]
    exact .inl ⟨_, rfl⟩
  | .cons hs ht => by
    rw [readOn_array, List.cons_append, skipSpace_cons (by decide), List.append_assoc]
    exact (hs.read _ (ht.ends rest)).trans fun v => ht.read opened _ v rest

theorem MemberForm.read {s : List Char} (h : MemberForm s) {rest : List Char} (hr : Ends rest) :
    ∃ k text, key (s ++ rest) = .ok (k, text) ∧
      ∀ opened, GoesOn (readValue opened text) opened rest :=
  match h with
  | .mk hp hs hq ht =>
    ⟨_, _, by simpa only [List.append_assoc, List.cons_append] using key_append hp hs hq,
      fun opened => ht.read opened hr⟩

theorem MoreMemberForms.read {t : List Char} (h : MoreMemberForms t) (opened : List Open)
    (done : List (String × Value)) (k : String) (v : Value) (rest : List Char) :
    GoesOn (readOn (.object done k :: opened) v (t ++ '}' :: rest)) opened rest :=
  match h with
  | .nil => by
    rw [List.nil_append, readOn_object, skipSpace_cons (by decide)]
    exact .inl ⟨_, rfl⟩
  | .cons hs ht => by
    obtain ⟨k', text, hkey, hvalue⟩ := hs.read (ht.ends rest)
    rw [readOn_object, List.cons_append, skipSpace_cons (by decide), List.append_assoc]
    simp only [hkey]
    exact (hvalue _).trans fun v => ht.read opened _ _ v rest

end

/-- A text that has the form of a document is a document or has a number of too great a
magnitude. -/
theorem parse_of_documentForm {text : List Char} (h : DocumentForm text) :
    (∃ v, parse text = .ok v) ∨ ∃ place, parse text = .error ⟨.number, place⟩ := by
  have hread := h.read [] ends_nil
  rw [List.append_nil] at hread
  rcases hread with ⟨v, hv⟩ | hnumber
  · rw [readOn] at hv
    exact .inl ⟨v, hv⟩
  · exact .inr hnumber

end JsonQuery.Json
