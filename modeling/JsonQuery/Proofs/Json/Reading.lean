import JsonQuery.Proofs.Json.Grammar
import JsonQuery.Proofs.Text.Reading

/-!
The reader of documents accepts exactly the texts of the grammar, with the values that they denote.
The open containers stand for what is still to be derived: a value is read when the reader goes on
with it behind its text, in whatever containers are open.
-/

namespace JsonQuery.Json

open Text (bind_eq_ok)
open Numeral (Ends ends_cons ends_nil)

theorem skipSpace_append {p : List Char} (hp : Spaces p) (text : List Char) :
    skipSpace (p ++ text) = skipSpace text := by
  rw [skipSpace, List.dropWhile_append_of_pos hp.isSpace, skipSpace]

theorem skipSpace_cons {c : Char} (h : isSpace c = false) (rest : List Char) :
    skipSpace (c :: rest) = c :: rest := by
  rw [skipSpace, List.dropWhile_cons, h]
  rfl

theorem exists_spaces (text : List Char) : ∃ p, Spaces p ∧ text = p ++ skipSpace text :=
  ⟨text.takeWhile isSpace, fun _ hc => isSpace_iff.mp (List.all_eq_true.mp List.all_takeWhile _ hc),
    List.takeWhile_append_dropWhile.symm⟩

theorem exists_spaces_of_skipSpace {text rest : List Char} (h : skipSpace text = rest) :
    ∃ p, Spaces p ∧ text = p ++ rest :=
  h ▸ exists_spaces text

theorem ends_of_isSpace {c : Char} (h : isSpace c = true) (rest : List Char) :
    Ends (c :: rest) := by
  rcases isSpace_iff.mp h with rfl | rfl | rfl | rfl <;> exact ends_cons (by decide) rest

theorem ends_append {q rest : List Char} (hq : Spaces q) (hr : Ends rest) : Ends (q ++ rest) := by
  cases q with
  | nil => exact hr
  | cons c q => exact ends_of_isSpace (hq.isSpace c List.mem_cons_self) _

theorem number_append {s rest : List Char} {n : Numeral} (hs : n.NumeralText s)
    (hn : n.number.IsFinite) (hr : Ends rest) : number (s ++ rest) = .ok (n.number, rest) := by
  simp only [number, Numeral.numeral_append hs hr, bind, Except.bind, hn, if_true, pure,
    Except.pure]

theorem numeralText_of_number {text rest : List Char} {x : Number}
    (h : number text = .ok (x, rest)) :
    ∃ s, ∃ n : Numeral, n.NumeralText s ∧ n.number.IsFinite ∧ x = n.number ∧ text = s ++ rest := by
  obtain ⟨⟨n, rest'⟩, hn, h⟩ := bind_eq_ok.mp h
  obtain ⟨s, hs, rfl⟩ := Numeral.numeralText_of_numeral hn
  simp only at h
  split at h
  · rename_i hfinite
    cases h
    exact ⟨s, n, hs, hfinite, rfl, rfl⟩
  · cases h

theorem numeralText_first {s : List Char} {n : Numeral} (h : n.NumeralText s) :
    ∃ c t, s = c :: t ∧ (c = '-' ∨ c.isDigit = true) := by
  cases h with
  | @mk whole _ _ _ _ negative hw _ _ =>
    cases negative with
    | true => exact ⟨_, _, rfl, .inl rfl⟩
    | false =>
      obtain ⟨hne, hdigit⟩ := hw.isDigits
      obtain ⟨c, t, rfl⟩ := List.exists_cons_of_ne_nil hne
      exact ⟨_, _, rfl, .inr (hdigit c List.mem_cons_self)⟩

theorem eq_append_of_word {w : String} {letters text rest : List Char}
    (h : word w letters text = .ok rest) : text = letters ++ rest := by
  fun_induction word w letters text with
  | case1 text =>
    cases h
    rfl
  | case2 => cases h
  | case3 letter letters rest' ih => rw [List.cons_append, ih h]
  | case4 => cases h

theorem scalar_append {s rest : List Char} {v : Value} (h : ScalarText s v) (hr : Ends rest) :
    scalar (s ++ rest) = .ok (v, rest) := by
  cases h with
  | nullWord => rfl
  | trueWord => rfl
  | falseWord => rfl
  | number hs hn =>
    have hnumber := number_append hs hn hr
    obtain ⟨c, t, rfl, hc⟩ := numeralText_first hs
    rw [List.cons_append] at hnumber ⊢
    rw [scalar, if_pos hc, hnumber]
    · rfl
    all_goals
      rintro rfl
      simp at hc
  | string hs =>
    cases hs with
    | mk hbody =>
      rw [List.cons_append, List.append_assoc, List.singleton_append, scalar,
        stringTail_eq_ok_iff.mpr ⟨_, _, hbody, rfl, rfl⟩]
      rfl

theorem scalarText_of_scalar {text rest : List Char} {v : Value}
    (h : scalar text = .ok (v, rest)) : ∃ s, ScalarText s v ∧ text = s ++ rest := by
  rw [scalar.eq_def] at h
  split at h
  · obtain ⟨⟨s, rest'⟩, hs, h⟩ := bind_eq_ok.mp h
    cases h
    obtain ⟨body, cs, hbody, rfl, rfl⟩ := stringTail_eq_ok_iff.mp hs
    exact ⟨_, .string (.mk hbody), by simp⟩
  · obtain ⟨rest', hw, h⟩ := bind_eq_ok.mp h
    cases h
    exact ⟨_, .trueWord, eq_append_of_word hw⟩
  · obtain ⟨rest', hw, h⟩ := bind_eq_ok.mp h
    cases h
    exact ⟨_, .falseWord, eq_append_of_word hw⟩
  · obtain ⟨rest', hw, h⟩ := bind_eq_ok.mp h
    cases h
    exact ⟨_, .nullWord, eq_append_of_word hw⟩
  · split at h
    · obtain ⟨⟨x, rest'⟩, hn, h⟩ := bind_eq_ok.mp h
      cases h
      obtain ⟨s, n, hs, hfinite, rfl, htext⟩ := numeralText_of_number hn
      exact ⟨s, .number hs hfinite, htext⟩
    · cases h
  · cases h

theorem stringText_first {s : List Char} {k : String} (h : StringText s k) : ∃ t, s = '"' :: t := by
  cases h with
  | mk _ => exact ⟨_, rfl⟩

theorem key_append {p s q rest : List Char} {k : String} (hp : Spaces p) (hs : StringText s k)
    (hq : Spaces q) : key (p ++ (s ++ (q ++ ':' :: rest))) = .ok (k, rest) := by
  cases hs with
  | mk hbody =>
    have hquote : ∀ t, skipSpace ('"' :: t) = '"' :: t := skipSpace_cons (by decide)
    have hcolon : skipSpace (':' :: rest) = ':' :: rest := skipSpace_cons (by decide) rest
    rw [key, skipSpace_append hp, List.cons_append, hquote, List.append_assoc,
      List.singleton_append]
    simp only [stringTail_eq_ok_iff.mpr ⟨_, _, hbody, rfl, rfl⟩, bind, Except.bind,
      skipSpace_append hq, hcolon, pure, Except.pure]

theorem keyText_of_key {text rest : List Char} {k : String} (h : key text = .ok (k, rest)) :
    ∃ p s q, Spaces p ∧ StringText s k ∧ Spaces q ∧ text = p ++ (s ++ (q ++ ':' :: rest)) := by
  rw [key] at h
  split at h
  · rename_i rest₁ hquote
    obtain ⟨⟨k', rest₂⟩, hs, h⟩ := bind_eq_ok.mp h
    obtain ⟨body, cs, hbody, rfl, rfl⟩ := stringTail_eq_ok_iff.mp hs
    obtain ⟨p, hp, rfl⟩ := exists_spaces_of_skipSpace hquote
    simp only at h
    split at h
    · rename_i hcolon
      cases h
      obtain ⟨q, hq, rfl⟩ := exists_spaces_of_skipSpace hcolon
      exact ⟨p, _, q, hp, .mk hbody, hq, by simp⟩
    · cases h
  · cases h

section Steps

variable (opened : List Open) (v : Value) (text : List Char)

theorem readValue_eq :
    readValue opened text =
      match skipSpace text with
      | '{' :: rest =>
        match skipSpace rest with
        | '}' :: rest' => readOn opened (.object []) rest'
        | _ => key rest >>= fun r => readValue (.object [] r.1 :: opened) r.2
      | '[' :: rest =>
        match skipSpace rest with
        | ']' :: rest' => readOn opened (.array []) rest'
        | _ => readValue (.array [] :: opened) rest
      | rest => scalar rest >>= fun r => readOn opened r.1 r.2 := by
  rw [readValue.eq_def]
  split
  · rename_i rest h
    simp only [h]
    split
    · rename_i h'
      simp only [h']
    · split <;> simp_all [bind, Except.bind]
  · rename_i rest h
    simp only [h]
    split
    · rename_i h'
      simp only [h']
    · split <;> simp_all
  · split <;> simp_all [bind, Except.bind]

theorem readOn_array (done : List Value) :
    readOn (.array done :: opened) v text =
      match skipSpace text with
      | ',' :: rest => readValue (.array (v :: done) :: opened) rest
      | ']' :: rest => readOn opened (.array (v :: done).reverse) rest
      | rest => unexpected .elementEnd rest := by
  rw [readOn.eq_2]
  split <;> simp_all

theorem readOn_object (done : List (String × Value)) (k : String) :
    readOn (.object done k :: opened) v text =
      match skipSpace text with
      | ',' :: rest =>
        key rest >>= fun r => readValue (.object (Keyed.put k v done) r.1 :: opened) r.2
      | '}' :: rest => readOn opened (.object (Keyed.put k v done)) rest
      | rest => unexpected .memberEnd rest := by
  rw [readOn.eq_3]
  split
  · split <;> simp_all [bind, Except.bind]
  · simp_all
  · simp_all

variable {opened v text}

theorem readValue_spaces {p : List Char} (hp : Spaces p) :
    readValue opened (p ++ text) = readValue opened text := by
  rw [readValue_eq, readValue_eq opened text, skipSpace_append hp]

theorem readOn_spaces {q : List Char} (hq : Spaces q) :
    readOn opened v (q ++ text) = readOn opened v text := by
  match opened with
  | [] => rw [readOn, readOn, skipSpace_append hq]
  | .array done :: opened => rw [readOn_array, readOn_array, skipSpace_append hq]
  | .object done k :: opened => rw [readOn_object, readOn_object, skipSpace_append hq]

end Steps

theorem isSpace_of_isDigit {c : Char} (h : c.isDigit = true) : isSpace c = false := by
  rw [← Bool.not_eq_true, isSpace_iff]
  rintro (rfl | rfl | rfl | rfl) <;> cases h

theorem ScalarText.first {s : List Char} {v : Value} (h : ScalarText s v) :
    ∃ c t, s = c :: t ∧ isSpace c = false ∧ c ≠ '[' ∧ c ≠ ']' ∧ c ≠ '{' := by
  cases h with
  | number hs _ =>
    obtain ⟨c, t, rfl, rfl | hc⟩ := numeralText_first hs
    · exact ⟨_, _, rfl, by decide, by decide, by decide, by decide⟩
    · refine ⟨c, t, rfl, isSpace_of_isDigit hc, ?_, ?_, ?_⟩ <;>
      · rintro rfl
        simp at hc
  | string hs =>
    obtain ⟨t, rfl⟩ := stringText_first hs
    exact ⟨_, _, rfl, by decide, by decide, by decide, by decide⟩
  | _ => exact ⟨_, _, rfl, by decide, by decide, by decide, by decide⟩

theorem ValueText.first {s : List Char} {v : Value} (h : ValueText s v) :
    ∃ c t, s = c :: t ∧ isSpace c = false ∧ c ≠ ']' := by
  cases h with
  | scalar hs =>
    obtain ⟨c, t, rfl, hspace, -, hclose, -⟩ := hs.first
    exact ⟨c, t, rfl, hspace, hclose⟩
  | _ => exact ⟨_, _, rfl, by decide, by decide⟩

theorem MoreElements.ends {t : List Char} {elements : List Value} (h : MoreElements t elements)
    (rest : List Char) : Ends (t ++ ']' :: rest) := by
  cases h with
  | nil => exact ends_cons (by decide) rest
  | cons _ _ => exact ends_cons (by decide) _

theorem MoreMembers.ends {t : List Char} {members : List (String × Value)}
    (h : MoreMembers t members) (rest : List Char) : Ends (t ++ '}' :: rest) := by
  cases h with
  | nil => exact ends_cons (by decide) rest
  | cons _ _ => exact ends_cons (by decide) _

section Brackets

variable {opened : List Open} {rest : List Char}

theorem readValue_scalar {s : List Char} {v : Value} (hs : ScalarText s v) (hr : Ends rest) :
    readValue opened (s ++ rest) = readOn opened v rest := by
  have hscalar := scalar_append hs hr
  obtain ⟨c, t, rfl, hspace, harray, -, hobject⟩ := hs.first
  rw [List.cons_append] at hscalar ⊢
  rw [readValue_eq, skipSpace_cons hspace]
  split
  · rename_i heq
    cases heq
    exact absurd rfl hobject
  · rename_i heq
    cases heq
    exact absurd rfl harray
  · rw [hscalar]
    rfl

theorem readValue_emptyArray {p : List Char} (hp : Spaces p) :
    readValue opened ('[' :: (p ++ ']' :: rest)) = readOn opened (.array []) rest := by
  rw [readValue_eq, skipSpace_cons (by decide)]
  simp only [skipSpace_append hp, skipSpace_cons (c := ']') (by decide)]

theorem readValue_emptyObject {p : List Char} (hp : Spaces p) :
    readValue opened ('{' :: (p ++ '}' :: rest)) = readOn opened (.object []) rest := by
  rw [readValue_eq, skipSpace_cons (by decide)]
  simp only [skipSpace_append hp, skipSpace_cons (c := '}') (by decide)]

theorem readValue_array {s : List Char} {v : Value} (hs : PaddedText s v) :
    readValue opened ('[' :: (s ++ rest)) = readValue (.array [] :: opened) (s ++ rest) := by
  cases hs with
  | mk hp hs hq =>
    obtain ⟨c, t, rfl, hspace, hc⟩ := hs.first
    rw [readValue_eq, skipSpace_cons (by decide)]
    simp only [List.append_assoc, List.cons_append, skipSpace_append hp, skipSpace_cons hspace]
    split
    · rename_i hclose
      cases hclose
      exact absurd rfl hc
    · rfl

theorem readValue_object {text : List Char} {k : String} (h : key text = .ok (k, rest)) :
    readValue opened ('{' :: text) = readValue (.object [] k :: opened) rest := by
  rw [readValue_eq, skipSpace_cons (by decide)]
  simp only
  split
  · rename_i hclose
    rw [key, hclose] at h
    cases h
  · rw [h]
    rfl

end Brackets

mutual

/-- Behind the text of a value the reader goes on with the value. -/
theorem ValueText.read {s : List Char} {v : Value} (h : ValueText s v) (opened : List Open)
    {rest : List Char} (hr : Ends rest) : readValue opened (s ++ rest) = readOn opened v rest :=
  match h with
  | .scalar hs => readValue_scalar hs hr
  | .emptyArray hp => by
    rw [List.cons_append, List.append_assoc, List.singleton_append, readValue_emptyArray hp]
  | .emptyObject hp => by
    rw [List.cons_append, List.append_assoc, List.singleton_append, readValue_emptyObject hp]
  | .array hs ht => by
    rw [List.cons_append, List.append_assoc, List.append_assoc, List.singleton_append,
      readValue_array hs, hs.read _ (ht.ends rest), ht.read]
    rfl
  | .object hs ht => by
    obtain ⟨text, hkey, hvalue⟩ := hs.read (ht.ends rest)
    rw [List.cons_append, List.append_assoc, List.append_assoc, List.singleton_append,
      readValue_object hkey, hvalue, ht.read, ← Value.foldl_put_eq_merged]
    rfl

theorem PaddedText.read {s : List Char} {v : Value} (h : PaddedText s v) (opened : List Open)
    {rest : List Char} (hr : Ends rest) : readValue opened (s ++ rest) = readOn opened v rest :=
  match h with
  | .mk hp hs hq => by
    rw [List.append_assoc, List.append_assoc, readValue_spaces hp, hs.read _ (ends_append hq hr),
      readOn_spaces hq]

/-- Behind the elements after the first, the array is a finished value. -/
theorem MoreElements.read {t : List Char} {elements : List Value} (h : MoreElements t elements)
    (opened : List Open) (done : List Value) (v : Value) (rest : List Char) :
    readOn (.array done :: opened) v (t ++ ']' :: rest) =
      readOn opened (.array (done.reverse ++ v :: elements)) rest :=
  match h with
  | .nil => by
    rw [List.nil_append, readOn_array, skipSpace_cons (by decide), List.reverse_cons]
    rfl
  | .cons hs ht => by
    rw [readOn_array, List.cons_append, skipSpace_cons (by decide), List.append_assoc]
    simp only
    rw [hs.read _ (ht.ends rest), ht.read, List.reverse_cons, List.append_assoc,
      List.singleton_append]

theorem MemberText.read {s : List Char} {m : String × Value} (h : MemberText s m)
    {rest : List Char} (hr : Ends rest) :
    ∃ text, key (s ++ rest) = .ok (m.1, text) ∧
      ∀ opened, readValue opened text = readOn opened m.2 rest :=
  match h with
  | .mk hp hs hq ht =>
    ⟨_, by simpa only [List.append_assoc, List.cons_append] using key_append hp hs hq,
      fun opened => ht.read opened hr⟩

theorem MoreMembers.read {t : List Char} {members : List (String × Value)}
    (h : MoreMembers t members) (opened : List Open) (done : List (String × Value)) (k : String)
    (v : Value) (rest : List Char) :
    readOn (.object done k :: opened) v (t ++ '}' :: rest) =
      readOn opened (.object (members.foldl (fun done m => Keyed.put m.1 m.2 done)
        (Keyed.put k v done))) rest :=
  match h with
  | .nil => by
    rw [List.nil_append, readOn_object, skipSpace_cons (by decide)]
    rfl
  | .cons hs ht => by
    obtain ⟨text, hkey, hvalue⟩ := hs.read (ht.ends rest)
    rw [readOn_object, List.cons_append, skipSpace_cons (by decide), List.append_assoc]
    simp only [hkey]
    exact (hvalue _).trans (ht.read opened _ _ _ rest)

end

theorem length_lt_of_eq {text p s rest : List Char} {c : Char}
    (h : text = p ++ (s ++ c :: rest)) : rest.length < text.length := by
  rw [h, List.length_append, List.length_append, List.length_cons]
  omega

theorem length_le_of_eq {text p s rest : List Char} (h : text = p ++ (s ++ rest)) :
    rest.length ≤ text.length := by
  rw [h, List.length_append, List.length_append]
  omega

mutual

/-- A reader that ends well has read a value, and has gone on with it behind its text. -/
theorem valueText_of_readValue {opened : List Open} {text : List Char} {root : Value}
    (h : readValue opened text = .ok root) :
    ∃ p s v rest, Spaces p ∧ ValueText s v ∧ text = p ++ (s ++ rest) ∧
      readOn opened v rest = .ok root := by
  rw [readValue_eq] at h
  split at h
  · rename_i rest hopen
    obtain ⟨p, hp, htext⟩ := exists_spaces_of_skipSpace hopen
    split at h
    · rename_i rest' hclose
      obtain ⟨q, hq, rfl⟩ := exists_spaces_of_skipSpace hclose
      exact ⟨p, _, _, rest', hp, .emptyObject hq, by simp [htext], h⟩
    · obtain ⟨⟨k, rest₁⟩, hkey, hread⟩ := bind_eq_ok.mp h
      dsimp only at hread
      obtain ⟨p₁, s₁, q₁, hp₁, hs₁, hq₁, rfl⟩ := keyText_of_key hkey
      have hlt : rest₁.length < text.length := by
        rw [htext]
        simp only [List.length_append, List.length_cons]
        omega
      obtain ⟨p₂, s₂, v, rest₂, hp₂, hs₂, hrest₁, hon⟩ := valueText_of_readValue hread
      have hle := length_le_of_eq hrest₁
      obtain ⟨q₂, t, members, rest₃, hq₂, ht, hrest₂, hend⟩ := moreMembers_of_readOn hon
      refine ⟨p, _, _, rest₃, hp, .object (.mk hp₁ hs₁ hq₁ (.mk hp₂ hs₂ hq₂)) ht, ?_, ?_⟩
      · simp [htext, hrest₁, hrest₂]
      · rw [← Value.foldl_put_eq_merged]
        exact hend
  · rename_i rest hopen
    obtain ⟨p, hp, htext⟩ := exists_spaces_of_skipSpace hopen
    have hlt := length_lt_of_eq (s := []) htext
    split at h
    · rename_i rest' hclose
      obtain ⟨q, hq, rfl⟩ := exists_spaces_of_skipSpace hclose
      exact ⟨p, _, _, rest', hp, .emptyArray hq, by simp [htext], h⟩
    · obtain ⟨p₁, s, v, rest₁, hp₁, hs, hrest, h⟩ := valueText_of_readValue h
      have hle := length_le_of_eq hrest
      obtain ⟨q₁, t, elements, rest₂, hq₁, ht, hrest₁, h⟩ := moreElements_of_readOn h
      refine ⟨p, _, _, rest₂, hp, .array (.mk hp₁ hs hq₁) ht, ?_, h⟩
      simp [htext, hrest, hrest₁]
  · obtain ⟨⟨v, rest⟩, hscalar, h⟩ := bind_eq_ok.mp h
    obtain ⟨s, hs, hrest⟩ := scalarText_of_scalar hscalar
    obtain ⟨p, hp, htext⟩ := exists_spaces text
    exact ⟨p, s, v, rest, hp, .scalar hs, by rw [← hrest, ← htext], h⟩
  termination_by text.length
  decreasing_by all_goals omega

theorem moreElements_of_readOn {opened : List Open} {done : List Value} {v : Value}
    {text : List Char} {root : Value} (h : readOn (.array done :: opened) v text = .ok root) :
    ∃ q t elements rest, Spaces q ∧ MoreElements t elements ∧ text = q ++ (t ++ ']' :: rest) ∧
      readOn opened (.array (done.reverse ++ v :: elements)) rest = .ok root := by
  rw [readOn_array] at h
  split at h
  · rename_i rest hcomma
    obtain ⟨q, hq, htext⟩ := exists_spaces_of_skipSpace hcomma
    have hlt := length_lt_of_eq (s := []) htext
    obtain ⟨p, s, v', rest₁, hp, hs, hrest, h⟩ := valueText_of_readValue h
    have hle := length_le_of_eq hrest
    obtain ⟨q₁, t, elements, rest₂, hq₁, ht, hrest₁, h⟩ := moreElements_of_readOn h
    refine ⟨q, _, _, rest₂, hq, .cons (.mk hp hs hq₁) ht, ?_, ?_⟩
    · simp [htext, hrest, hrest₁]
    · rw [List.reverse_cons, List.append_assoc] at h
      exact h
  · rename_i rest hclose
    obtain ⟨q, hq, htext⟩ := exists_spaces_of_skipSpace hclose
    exact ⟨q, [], [], rest, hq, .nil, htext, by rw [← List.reverse_cons]; exact h⟩
  · cases h
  termination_by text.length
  decreasing_by all_goals omega

theorem moreMembers_of_readOn {opened : List Open} {done : List (String × Value)} {k : String}
    {v : Value} {text : List Char} {root : Value}
    (h : readOn (.object done k :: opened) v text = .ok root) :
    ∃ q t members rest, Spaces q ∧ MoreMembers t members ∧ text = q ++ (t ++ '}' :: rest) ∧
      readOn opened (.object (members.foldl (fun done m => Keyed.put m.1 m.2 done)
        (Keyed.put k v done))) rest = .ok root := by
  rw [readOn_object] at h
  split at h
  · rename_i rest hcomma
    obtain ⟨q, hq, htext⟩ := exists_spaces_of_skipSpace hcomma
    obtain ⟨⟨k', rest₁⟩, hkey, hread⟩ := bind_eq_ok.mp h
    dsimp only at hread
    obtain ⟨p₁, s₁, q₁, hp₁, hs₁, hq₁, rfl⟩ := keyText_of_key hkey
    have hlt : rest₁.length < text.length := by
      rw [htext]
      simp only [List.length_append, List.length_cons]
      omega
    obtain ⟨p₂, s₂, v', rest₂, hp₂, hs₂, hrest₁, hon⟩ := valueText_of_readValue hread
    have hle := length_le_of_eq hrest₁
    obtain ⟨q₂, t, members, rest₃, hq₂, ht, hrest₂, hend⟩ := moreMembers_of_readOn hon
    refine ⟨q, _, _, rest₃, hq, .cons (.mk hp₁ hs₁ hq₁ (.mk hp₂ hs₂ hq₂)) ht, ?_, hend⟩
    simp [htext, hrest₁, hrest₂]
  · rename_i rest hclose
    obtain ⟨q, hq, htext⟩ := exists_spaces_of_skipSpace hclose
    exact ⟨q, [], [], rest, hq, .nil, htext, h⟩
  · cases h
  termination_by text.length
  decreasing_by all_goals omega

end

theorem parse_of_documentText {text : List Char} {v : Value} (h : DocumentText text v) :
    parse text = .ok v := by
  have hread := h.read [] ends_nil
  rw [List.append_nil, readOn] at hread
  exact hread

theorem documentText_of_parse {text : List Char} {v : Value} (h : parse text = .ok v) :
    DocumentText text v := by
  obtain ⟨p, s, v', rest, hp, hs, rfl, hend⟩ := valueText_of_readValue h
  rw [readOn] at hend
  split at hend
  · rename_i hspace
    cases hend
    obtain ⟨q, hq, rfl⟩ := exists_spaces_of_skipSpace hspace
    rw [List.append_nil]
    exact .mk hp hs hq
  · cases hend

/-- A text is read exactly when it is a JSON text, and as the value that it denotes. Its objects
have distinct keys and its numbers are finite. -/
theorem parse_eq_ok_iff_documentText (text : List Char) (v : Value) :
    (parse text = .ok v ↔ DocumentText text v) ∧
      (parse text = .ok v → v.KeysDistinct ∧ v.NumbersFinite) :=
  ⟨⟨documentText_of_parse, parse_of_documentText⟩, fun h =>
    ⟨(documentText_of_parse h).sound.keys, (documentText_of_parse h).sound.finite⟩⟩

/-- A key that comes twice keeps its place and takes the last value. -/
theorem parse_duplicate_key :
    let v := Value.object [("b", .array []), ("a", .null)]
    parse "\x7b\"b\":null, \"a\":null,\"b\":[ ]\x7d".toList = .ok v ∧
      v.KeysDistinct ∧ v.NumbersFinite := by
  intro v
  have hspaces : Spaces [] := fun _ h => by cases h
  have hkey : ∀ c, quoting.plain c → StringText ['"', c, '"'] (String.ofList [c]) :=
    fun _ hc => .mk (.cons (.plain hc) .nil)
  have hspace : Spaces [' '] := by simp [Spaces]
  have hvalue : ∀ {s w}, ValueText s w → PaddedText (s ++ []) w :=
    fun h => .mk hspaces h hspaces
  have hnull : PaddedText "null".toList .null := hvalue (.scalar .nullWord)
  have hmember : ∀ {p t w} c, Spaces p → quoting.plain c → PaddedText t w →
      MemberText (p ++ (['"', c, '"'] ++ ([] ++ ':' :: t))) (String.ofList [c], w) :=
    fun c hp hc ht => .mk hp (hkey c hc) hspaces ht
  have hdocument : DocumentText "\x7b\"b\":null, \"a\":null,\"b\":[ ]\x7d".toList v :=
    hvalue (.object (hmember 'b' hspaces (by simp [quoting]) hnull)
      (.cons (hmember 'a' hspace (by simp [quoting]) hnull)
        (.cons (hmember 'b' hspaces (by simp [quoting]) (hvalue (.emptyArray hspace))) .nil)))
  have h := parse_eq_ok_iff_documentText "\x7b\"b\":null, \"a\":null,\"b\":[ ]\x7d".toList v
  exact ⟨h.1.mpr hdocument, h.2 (h.1.mpr hdocument)⟩

end JsonQuery.Json
